import Mathlib.Algebra.GroupWithZero.Nat
import SparkDeck.Lib.Counter
import SparkDeck.Lib.Transition

/-!
# Lifecycle calls

`deployment_action` and `delete_deployment` of `sparkdeck/service.py`, from the call to its return,
over the stored records. A call names a record by its id or by its alias, and whatever it was given
is the key of its lock and of its entry among the launches in flight.

The code between two awaits is one step. An await of the Manager, and the raise of an exception, are
steps that the schedule takes when it likes: `finish`, `remove` and `scanned` stand for both. The
registry lock is held across no await, so nobody ever waits for it. `Creation` is a launch that some
creation has in flight when the run starts; it registered its event under the id of its record and
sets it when it settles. What the Manager does, discovered containers and the node ids of a launch
are left out.
-/

namespace SparkDeck.Lifecycle

open Dict

structure Row where
  id : String
  «alias» : String

def Row.named (r : Row) (key : String) : Bool := r.id == key || r.«alias» == key

/-- `SparkDeckStore.deployment` -/
def lookup (rows : List Row) (key : String) : Option Row := rows.find? (·.named key)

inductive Kind where
  | start
  | addInstance
  | other
  | delete
  deriving DecidableEq

inductive Stage where
  | queued
  /-- It has the lock of its key, and everything below has it too. -/
  | locked
  | aliasWait
  /-- With the alias lock. -/
  | scanning
  /-- `_deployment_action_locked`, of the record with this id. -/
  | working (record : Option String)
  /-- `_launch_controller_llama_deployment`, with the event it made. -/
  | launching (record : String) (event : ℕ)
  | ending
  /-- For the launch of the record. -/
  | waiting (record : String) (event : ℕ)
  | removing
  | done
  deriving DecidableEq

def Stage.inside : Stage → Bool
  | .queued => false
  | .done => false
  | _ => true

structure Call where
  kind : Kind
  key : String
  lock : ℕ
  stage : Stage
  deriving DecidableEq

/-- The key a call counts for as a user of its lock. -/
def Call.uses (c : Call) : Option String := if c.stage = .done then none else some c.key

structure Creation where
  record : String
  event : ℕ
  /-- Whether it is among `_deployment_launch_tasks`. -/
  task : Bool
  settled : Bool

structure State where
  rows : List Row
  creations : List Creation
  calls : List Call
  /-- `_deployment_launches` -/
  launches : Dict String ℕ
  /-- Events made so far. -/
  events : ℕ
  isSet : ℕ → Bool
  /-- `_deployment_action_locks` -/
  locks : Dict String ℕ
  /-- `_deployment_action_lock_users` -/
  users : Dict String ℕ
  /-- Locks made so far. -/
  lockCount : ℕ
  holder : ℕ → Option ℕ
  aliasHolder : Option ℕ

inductive Act where
  | call (kind : Kind) (key : String)
  | acquire (i : ℕ)
  /-- From the lock to the first await. -/
  | enter (i : ℕ)
  | acquireAlias (i : ℕ)
  | scanned (i : ℕ) (ok : Bool)
  | launch (i : ℕ)
  | settle (i : ℕ)
  | finish (i : ℕ)
  | wake (i : ℕ)
  | remove (i : ℕ) (ok : Bool)
  | settleCreation (j : ℕ) (keep : Bool)

/-- Whether it is a step of what is in progress. -/
def Act.progress : Act → Bool
  | .call _ _ => false
  | _ => true

variable {s : State}

def State.move (s : State) (i : ℕ) (c : Call) (stage : Stage) : State :=
  { s with calls := s.calls.set i { c with stage := stage } }

/-- The end of `_deployment_lifecycle_lock`. -/
def State.leave (s : State) (i : ℕ) (c : Call) : State :=
  { s.move i c .done with
    holder := Function.update s.holder c.lock none
    users := s.users.down c.key
    locks :=
      if 1 < (s.users.get c.key).getD 0 then s.locks
      else if s.locks.get c.key = some c.lock then s.locks.erase c.key
      else s.locks }

/-- `_deployment_launches.setdefault(key, asyncio.Event())` -/
def State.register (s : State) (key : String) : State :=
  { s with launches := s.launches.setdefault key s.events, events := s.events + 1 }

/-- `_deployment_launches.pop(key, None)` -/
def State.pop (s : State) (key : String) : State := { s with launches := s.launches.erase key }

/-- `_deployment_launch_tasks` has a launch that is not done. -/
def State.launchTask (s : State) (key : String) : Bool :=
  s.creations.any fun x => x.task && !x.settled && x.record == key

/-- The record a call works on. -/
def State.target (s : State) (c : Call) : Option String := (lookup s.rows c.key).map Row.id

/-- `_delete_deployment_locked`, up to its first await. -/
def State.awaited (s : State) (c : Call) : Stage :=
  match s.target c with
  | none => .removing
  | some record =>
    match s.launches.get record with
    | some event => .waiting record event
    | none => .removing

/-- `deployment_action` and `delete_deployment`, once the lock is theirs. -/
def State.enter (s : State) (i : ℕ) (c : Call) : State :=
  match c.kind with
  | .delete => s.move i c (s.awaited c)
  | .other => if s.launchTask c.key then s.leave i c else s.move i c (.working (s.target c))
  | _ => if s.launchTask c.key then s.leave i c else s.move i c .aliasWait

/-- The end of the scan, with or without an exception. -/
def State.scanned (s : State) (i : ℕ) (c : Call) (ok : Bool) : State :=
  let s' := { s with aliasHolder := none }
  if ok = false then s'.leave i c
  else if c.kind = .start then (s'.register c.key).move i c (.working (s.target c))
  else s'.move i c (.working (s.target c))

/-- The end of `_deployment_action_locked`. -/
def State.finish (s : State) (i : ℕ) (c : Call) : State :=
  (if c.kind = .start then s.pop c.key else s).leave i c

/-- The end of `_delete_deployment_locked`; the store deletes by id. -/
def State.remove (s : State) (i : ℕ) (c : Call) (ok : Bool) : State :=
  { s with rows := if ok then s.rows.filter (·.id ≠ c.key) else s.rows }.leave i c

/-- The `finally` of a launch. -/
def State.complete (s : State) (record : String) (event : ℕ) : State :=
  { s with
    isSet := Function.update s.isSet event true
    launches := s.launches.erase record }

/-- A step of call `i`. -/
def stepCall (s : State) (i : ℕ) (c : Call) : Act → Option State
  | .acquire _ =>
    if c.stage = .queued ∧ s.holder c.lock = none then
      some { s.move i c .locked with holder := Function.update s.holder c.lock (some i) }
    else none
  | .enter _ => if c.stage = .locked then some (s.enter i c) else none
  | .acquireAlias _ =>
    if c.stage = .aliasWait ∧ s.aliasHolder = none then
      some { s.move i c .scanning with aliasHolder := some i }
    else none
  | .scanned _ ok => if c.stage = .scanning then some (s.scanned i c ok) else none
  | .launch _ =>
    match c.stage with
    | .working (some record) =>
      if c.kind = .start then some ((s.register record).move i c (.launching record s.events))
      else none
    | _ => none
  | .settle _ =>
    match c.stage with
    | .launching record event => some ((s.complete record event).move i c .ending)
    | _ => none
  | .finish _ =>
    match c.stage with
    | .working _ => some (s.finish i c)
    | .ending => some (s.finish i c)
    | _ => none
  | .wake _ =>
    match c.stage with
    | .waiting _ event => if s.isSet event then some (s.move i c .removing) else none
    | _ => none
  | .remove _ ok => if c.stage = .removing then some (s.remove i c ok) else none
  | _ => none

/-- The call a step is about. -/
def Act.subject : Act → Option ℕ
  | .call _ _ => none
  | .settleCreation _ _ => none
  | .acquire i => some i
  | .enter i => some i
  | .acquireAlias i => some i
  | .scanned i _ => some i
  | .launch i => some i
  | .settle i => some i
  | .finish i => some i
  | .wake i => some i
  | .remove i _ => some i

/-- The lock a call gets, of those made so far or a new one. -/
def State.lockFor (s : State) (key : String) : ℕ := (s.locks.get key).getD s.lockCount

def step (s : State) (a : Act) : Option State :=
  match a with
  | .call kind key =>
    some { s with
      locks := s.locks.setdefault key s.lockCount
      lockCount := s.lockCount + 1
      users := s.users.up key
      calls := s.calls ++ [⟨kind, key, s.lockFor key, .queued⟩] }
  | .settleCreation j keep =>
    match s.creations[j]? with
    | some x =>
      if x.settled then none
      else
        some { s.complete x.record x.event with
          creations := s.creations.set j { x with settled := true }
          rows := if keep then s.rows else s.rows.filter (·.id ≠ x.record) }
    | none => none
  | a =>
    match a.subject with
    | some i =>
      match s.calls[i]? with
      | some c => stepCall s i c a
      | none => none
    | none => none

/-! ## What is claimed of every state -/

/-- What is left to do for a call, at most. -/
def Stage.work : Stage → ℕ
  | .queued => 8
  | .locked => 7
  | .aliasWait => 6
  | .scanning => 5
  | .working _ => 4
  | .launching _ _ => 3
  | .waiting _ _ => 3
  | .ending => 2
  | .removing => 2
  | .done => 0

def State.work (s : State) : ℕ :=
  (s.calls.map (·.stage.work)).sum + s.creations.countP (!·.settled)

/-- Nothing is in progress. -/
def State.idle (s : State) : Prop := ∀ c ∈ s.calls, c.stage = .done

structure Serialised (s : State) : Prop where
  /-- Two calls that address one record are not both in their locked part. -/
  exclusive : ∀ (i j : ℕ) (c d : Call) (r : Row), s.calls[i]? = some c → s.calls[j]? = some d →
    c.stage.inside → d.stage.inside →
    lookup s.rows c.key = some r → lookup s.rows d.key = some r → i = j
  /-- An event that somebody waits for is set, or still in the table. -/
  woken : ∀ (i : ℕ) (c : Call) (record : String) (event : ℕ), s.calls[i]? = some c →
    c.stage = .waiting record event →
    s.isSet event ∨ s.launches.get record = some event
  /-- Something in progress can go on. -/
  live : ¬s.idle → ∃ a t, a.progress ∧ step s a = some t
  /-- And not for ever. -/
  ends : ∀ a t, a.progress → step s a = some t → t.work < s.work
  /-- The table of locks and the count of their users. -/
  retired : s.idle → s.locks.keys = ∅ ∧ s.users.keys = ∅

/-- A record is not addressed by one of its names while a call by the other is in progress. -/
def OneName (s : State) : Act → Prop
  | .call _ key => ∀ c ∈ s.calls, c.stage ≠ .done → c.key ≠ key → ∀ r ∈ s.rows,
      r.named c.key = true → r.named key = false
  | _ => True

instance (s : State) : ∀ a, Decidable (OneName s a)
  | .call _ _ => inferInstanceAs (Decidable (∀ _ ∈ _, _))
  | .acquire _ => isTrue trivial
  | .enter _ => isTrue trivial
  | .acquireAlias _ => isTrue trivial
  | .scanned _ _ => isTrue trivial
  | .launch _ => isTrue trivial
  | .settle _ => isTrue trivial
  | .finish _ => isTrue trivial
  | .wake _ => isTrue trivial
  | .remove _ _ => isTrue trivial
  | .settleCreation _ _ => isTrue trivial

/-- Stored records, and the launches that creations have in flight. -/
structure Init (s : State) : Prop where
  ids : (s.rows.map Row.id).Nodup
  records : (s.creations.map Creation.record).Nodup
  launches : ∀ k e, s.launches.get k = some e →
    ∃ x ∈ s.creations, x.settled = false ∧ x.record = k ∧ x.event = e
  calls : s.calls = []
  locks : s.locks = Dict.empty
  users : s.users = Dict.empty
  holder : ∀ l, s.holder l = none
  aliasHolder : s.aliasHolder = none

end SparkDeck.Lifecycle
