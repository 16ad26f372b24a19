import SparkDeck.Lib.Transition
import Mathlib.Data.List.Nodup

/-!
# The cluster dispatch slot

Model of `acquire_dispatch_slot` and `dispatch_slot_held` (`sparkdeck/download_throttle.py:25-58`) and
of `_cancellable_dispatch_slot` (`sparkdeck/virtual_nas.py:1287-1341`).

An operation is one use of either, by one task; the operations of a task nest. The await points are
the wait for the lock (`waiting`), for `_cancellable_dispatch_slot` the drain of the event's waiter
(`settling`), the body (`inside`), and the drain in its `finally` (`cleanup`). A task may be cancelled
at each; in the body that is one of the ways it ends. The acquisition of `_cancellable_dispatch_slot`
runs in a task of its own, so it may get the lock at any time until it is cancelled, which is the
first thing `cleanup` does.

A context is copied when a task is created; `held` has the operation that set the flag, of which the
code knows only that it is set.
-/

namespace SparkDeck.Vnas.Slot

open Function

inductive Outcome where
  /-- The body has ended, in whatever way. -/
  | done
  /-- `TransferCanceled`. -/
  | canceled
  /-- `CancelledError`, before the body. -/
  | cancelled
  deriving DecidableEq

inductive Stage (O : Type*) where
  /-- The body runs; no slot is needed. -/
  | uncapped
  /-- The body runs under the slot of the operation that set the flag. -/
  | covered (holder : O)
  | waiting
  | settling
  | inside
  | cleanup (r : Outcome)
  | finished (r : Outcome)
  deriving DecidableEq

namespace Stage

variable {O : Type*}

/-- The task runs the body. -/
def body : Stage O → Bool
  | .uncapped | .covered _ | .inside => true
  | _ => false

/-- Its body is not entered yet. -/
def waits : Stage O → Bool
  | .waiting | .settling => true
  | _ => false

def drains : Stage O → Bool
  | .cleanup _ => true
  | _ => false

def ends : Stage O → Bool
  | .finished _ => true
  | _ => false

end Stage

structure Operation (T O : Type*) where
  task : T
  /-- `_cancellable_dispatch_slot`. -/
  cancellable : Bool
  stage : Stage O
  /-- The acquisition has got the lock. -/
  acquired : Bool
  /-- The job's cancel event is set. -/
  event : Bool
  /-- History: how often it released the lock. -/
  releases : ℕ
  /-- History: its body was entered with the slot. -/
  entered : Bool
  /-- History: the event was set before the body was entered. -/
  caught : Bool
  /-- History: its task was cancelled. -/
  thrown : Bool

/-- It holds the slot. -/
def Operation.Holds {T O : Type*} (o : Operation T O) : Prop := o.acquired ∧ o.releases = 0

structure World (T O : Type*) where
  /-- `lock.locked()`. -/
  locked : Bool
  /-- The tasks that are not done. -/
  tasks : List T
  /-- `dispatch_slot_held` in the context of each task. -/
  held : T → Option O
  /-- The operations each task is in, innermost first. -/
  stack : T → List O
  ops : O → Option (Operation T O)

inductive Label (T O : Type*) where
  | spawn (parent : Option T) (child : T)
  | exit (task : T)
  /-- A task uses the slot; `capped` is false also when there is no lock. -/
  | begin (task : T) (o : O) (capped cancellable : Bool)
  | acquire (o : O)
  /-- `asyncio.wait` returns. -/
  | wake (o : O)
  /-- `stop` is drained. -/
  | settle (o : O)
  | setEvent (o : O)
  /-- The body ends. -/
  | leave (o : O)
  /-- `acquire` and `stop` are drained. -/
  | close (o : O)
  /-- The task is cancelled at an await point outside the body. -/
  | throw (o : O)

namespace World

variable {T O : Type*} [DecidableEq T] [DecidableEq O]

def init : World T O := ⟨false, [], fun _ => none, fun _ => [], fun _ => none⟩

variable (g : World T O)

def put (o : O) (x : Operation T O) : World T O := { g with ops := update g.ops o (some x) }

/-- The task runs its own code or a body. -/
def Running (t : T) : Prop :=
  t ∈ g.tasks ∧ ∀ o ∈ (g.stack t).head?, ∀ x ∈ g.ops o, x.stage.body

instance (t : T) : Decidable (g.Running t) := by
  unfold Running
  infer_instance

/-- Operation `o` is where its task is. -/
def top (o : O) : Option (Operation T O) :=
  match g.ops o with
  | some x => if (g.stack x.task).head? = some o then some x else none
  | none => none

/-- The task leaves its innermost operation. -/
def pop (t : T) : World T O := { g with stack := update g.stack t (g.stack t).tail }

/-- Where a use of the slot begins. -/
def start (t : T) (capped : Bool) : Stage O :=
  if capped then
    match g.held t with
    | some h => .covered h
    | none => .waiting
  else .uncapped

/-- The lock is released. -/
def unlock : World T O := { g with locked := false }

/-- `dispatch_slot_held.set(True)`, and the body is entered. -/
def enter (o : O) (x : Operation T O) : World T O :=
  { g with held := update g.held x.task (some o) }.put o
    { x with stage := .inside, entered := true }

/-- `dispatch_slot_held.reset(token)`: the flag was not set when the slot was entered. -/
def reset (t : T) : World T O := { g with held := update g.held t none }

def step (g : World T O) : Label T O → Option (World T O)
  | .spawn p c =>
    if c ∈ g.tasks ∨ g.stack c ≠ [] then none
    else
      match p with
      | none => some { g with tasks := c :: g.tasks, held := update g.held c none }
      | some t =>
        if g.Running t then
          some { g with tasks := c :: g.tasks, held := update g.held c (g.held t) }
        else none
  | .exit t =>
    if t ∈ g.tasks ∧ g.stack t = [] then some { g with tasks := g.tasks.erase t } else none
  | .begin t o capped cancellable =>
    if g.Running t ∧ g.ops o = none then
      some ({ g with stack := update g.stack t (o :: g.stack t) }.put o
        ⟨t, cancellable, g.start t capped, false, false, 0, false, false, false⟩)
    else none
  | .acquire o =>
    match g.ops o with
    | some x =>
      if x.stage = .waiting ∧ x.acquired = false ∧ g.locked = false then
        let x := { x with acquired := true }
        let g := { g with locked := true }
        some (if x.cancellable then g.put o x else g.enter o x)
      else none
    | none => none
  | .wake o =>
    match g.top o with
    | some x =>
      if x.stage = .waiting ∧ x.cancellable ∧ (x.acquired ∨ x.event) then
        some (g.put o { x with stage := if x.acquired then .settling else .cleanup .canceled })
      else none
    | none => none
  | .settle o =>
    match g.top o with
    | some x =>
      if x.stage = .settling then
        some (if x.event then g.put o { x with stage := .cleanup .canceled } else g.enter o x)
      else none
    | none => none
  | .setEvent o =>
    match g.ops o with
    | some x =>
      some (g.put o { x with
        event := true
        caught := x.caught || (x.cancellable && x.stage.waits) })
    | none => none
  | .leave o =>
    match g.top o with
    | some x =>
      match x.stage with
      | .uncapped | .covered _ => some ((g.put o { x with stage := .finished .done }).pop x.task)
      | .inside =>
        if x.cancellable then some ((g.put o { x with stage := .cleanup .done }).reset x.task)
        else
          some ((((g.put o { x with stage := .finished .done, releases := x.releases + 1 }).reset
            x.task).unlock).pop x.task)
      | _ => none
    | none => none
  | .close o =>
    match g.top o with
    | some x =>
      match x.stage with
      | .cleanup r =>
        let g := g.pop x.task
        some (if x.acquired then
          (g.put o { x with stage := .finished r, releases := x.releases + 1 }).unlock
        else g.put o { x with stage := .finished r })
      | _ => none
    | none => none
  | .throw o =>
    match g.top o with
    | some x =>
      match x.stage with
      | .waiting | .settling =>
        if x.cancellable then
          some (g.put o { x with stage := .cleanup .cancelled, thrown := true })
        else some ((g.put o { x with stage := .finished .cancelled, thrown := true }).pop x.task)
      | .cleanup _ =>
        -- the gather of the `finally` raises, and what comes after it is not run
        some ((g.put o { x with stage := .finished .cancelled, thrown := true }).pop x.task)
      | _ => none
    | none => none

/-! ## What holds -/

/-- What the slot is for. -/
structure Exclusive : Prop where
  /-- At most one holder is inside. -/
  single : ∀ o x o' x', g.ops o = some x → g.ops o' = some x' → x.stage = .inside →
    x'.stage = .inside → o = o'
  /-- A body runs without the slot only under a holder that is inside. -/
  covered : ∀ o x h, g.ops o = some x → x.stage = .covered h →
    ∃ y, g.ops h = some y ∧ y.stage = .inside
  /-- An operation releases what it acquired, once, -/
  once : ∀ o x, g.ops o = some x → x.releases ≤ 1 ∧ (x.releases = 1 → x.acquired) ∧
    ∀ r, x.stage = .finished r → x.acquired → x.releases = 1
  /-- so the lock is free when nobody holds the slot. -/
  free : g.locked = true → ∃ o x, g.ops o = some x ∧ x.Holds ∧ x.stage.ends = false
  /-- A job that was canceled while it waited does not enter the body, and raises
  `TransferCanceled` (its task may be cancelled as well). -/
  canceled : ∀ o x, g.ops o = some x → x.caught = true → x.entered = false ∧
    ∀ r, x.stage = .finished r → r = .canceled ∨ x.thrown

/-- A holder leaves the body only when the other tasks that have copied its flag are done; and no
task is cancelled in the drain of a `finally` with the lock acquired. -/
def Clean (g : World T O) : Label T O → Prop
  | .leave o => ∀ x ∈ g.ops o, x.stage = .inside → ∀ t ∈ g.tasks, g.held t = some o → t = x.task
  | .throw o => ∀ x ∈ g.ops o, x.acquired = true → x.stage.drains = false
  | _ => True

instance (g : World T O) (e : Label T O) : Decidable (Clean g e) := by
  unfold Clean
  split <;> infer_instance

end World

end SparkDeck.Vnas.Slot
