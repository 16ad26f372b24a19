import Mathlib.Data.List.Basic
import SparkDeck.Lib.Transition

/-!
# The lifecycle hooks of an external container

`_start_external_lifecycle_task`, `_run_external_lifecycle_command`, `_interrupt_external_start` and
the start and stop of `deployment_action` for one container that has hooks (`sparkdeck/service.py`).
What is between two awaits is one step. Requests are not serialized here, although those for one
deployment are.

* A hook is an entry of `_external_lifecycle_tasks` with its task, and the process that it started;
  `published` and `ready` are the entry's `process` and `ready`. The table has one slot for a
  container.
* A signal changes nothing in the state: it makes an exit likely, not certain, and a process may exit
  at any time. So a hook that ignores signals is one that has not exited yet. A timeout may fire
  whenever it is awaited.
* A cancellation is asked for (`cancelled`) and then delivered at the await of the task. Whoever asks
  is left open: `close()` does for tasks without a published child and for those that outlive its
  `SIGKILL`, `_interrupt_external_start` after its first timeout, and a request that is itself
  cancelled while it awaits the task. A task that has not run yet is done without running at all.
* `create_subprocess_shell` that is cancelled closes its transport and awaits the end of the child
  (`unspawning`).
* A stop registers its hook in the step in which its interruption returns: there is no await between.
-/

namespace SparkDeck.Hooks

inductive Action where
  | start
  | stop
  deriving DecidableEq

/-- `_run_external_lifecycle_command` -/
inductive Task where
  /-- It has not run yet. -/
  | created
  /-- It awaits `create_subprocess_shell`. -/
  | spawning
  /-- `create_subprocess_shell` was cancelled and awaits the end of the child. -/
  | unspawning
  /-- It awaits the output and the end of the child. -/
  | reading
  /-- It was cancelled, has killed the child, and awaits its end. -/
  | cleaning
  | done
  deriving DecidableEq

inductive Process where
  | none
  | running
  | exited
  deriving DecidableEq

structure Hook where
  action : Action
  task : Task
  cancelled : Bool
  process : Process
  published : Bool
  ready : Bool
  /-- The task ended by a cancellation. -/
  aborted : Bool

/-- A stop. Its interruption is about a hook. -/
inductive Request where
  /-- `wait_for(ready.wait())` -/
  | waiting (h : ℕ)
  /-- The task was cancelled, and is awaited. -/
  | cancelling (h : ℕ)
  /-- There is no child, and the task is awaited. -/
  | awaiting (h : ℕ)
  | terming (h : ℕ)
  | killing (h : ℕ)
  /-- The task is done, and the child is awaited. -/
  | reaping (h : ℕ)
  /-- The interruption returned; the hook that the stop started, unless another one was running. -/
  | returned (h : Option ℕ) (hook : Option ℕ)
  | raised
  deriving DecidableEq

structure State where
  hooks : List Hook
  /-- `_external_lifecycle_tasks` -/
  table : Option ℕ
  requests : List Request

inductive Act where
  | start
  | stop
  | begin (h : ℕ)
  | forks (h : ℕ)
  | spawned (h : ℕ)
  | spawnFails (h : ℕ)
  | exits (h : ℕ)
  | readEnds (h : ℕ)
  /-- Any other exception. -/
  | readFails (h : ℕ)
  | cancel (h : ℕ)
  | deliver (h : ℕ)
  | cleaned (h : ℕ)
  | cleanTimeout (h : ℕ)
  | readyWaits (r : ℕ)
  | readyTimeout (r : ℕ)
  | taskEnds (r : ℕ)
  | termTimeout (r : ℕ)
  | killTimeout (r : ℕ)
  | reaped (r : ℕ)
  | reapTimeout (r : ℕ)
  /-- The request is cancelled. -/
  | abandon (r : ℕ)

def Hook.new (action : Action) : Hook := ⟨action, .created, false, .none, false, false, false⟩

variable (s : State)

def State.put (h : ℕ) (hook : Hook) : State := { s with hooks := s.hooks.set h hook }

def State.request (r : ℕ) (request : Request) : State :=
  { s with requests := s.requests.set r request }

/-- The entry is removed, if it is in the table. -/
def State.pop (h : ℕ) : State := { s with table := if s.table = some h then none else s.table }

/-- `_reject_external_lifecycle_in_flight` does not raise. -/
def State.isFree : Bool :=
  match s.table with
  | none => true
  | some h =>
    match s.hooks[h]? with
    | some hook => hook.task = .done
    | none => true

/-- `_start_external_lifecycle_task`, once nothing is in flight. -/
def State.register (action : Action) : State :=
  { s with hooks := s.hooks ++ [Hook.new action], table := some s.hooks.length }

/-- The `finally` of a task, and its end. -/
def State.finish (h : ℕ) (hook : Hook) (aborted : Bool) : State :=
  (s.put h { hook with task := .done, cancelled := false, ready := true, aborted := aborted }).pop h

def State.cancel (h : ℕ) : State :=
  match s.hooks[h]? with
  | some hook => if hook.task = .done then s else s.put h { hook with cancelled := true }
  | none => s

/-- The interruption returns, and the stop goes on. -/
def State.goOn (r : ℕ) (h : Option ℕ) : State :=
  if s.isFree then (s.register .stop).request r (.returned h (some s.hooks.length))
  else s.request r (.returned h none)

/-- The end of `_interrupt_external_start`. -/
def State.leave (r h : ℕ) : State := (s.pop h).goOn r (some h)

/-- `if process.returncode is None` -/
def State.check (r h : ℕ) (hook : Hook) : State :=
  if hook.process = .running then s.request r (.reaping h) else s.leave r h

def stepHook (h : ℕ) (hook : Hook) : Act → Option State
  | .begin _ =>
    if hook.task = .created ∧ hook.cancelled = false then some (s.put h { hook with task := .spawning })
    else none
  | .forks _ =>
    if hook.task = .spawning ∧ hook.process = .none then
      some (s.put h { hook with process := .running })
    else none
  | .spawned _ =>
    if hook.task = .spawning ∧ hook.cancelled = false ∧ hook.process ≠ .none then
      some (s.put h { hook with
        task := .reading
        published := s.table = some h
        ready := s.table = some h })
    else none
  | .spawnFails _ =>
    if hook.task = .spawning ∧ hook.cancelled = false ∧ hook.process = .none then
      some (s.finish h hook false)
    else none
  | .exits _ =>
    if hook.process = .running then some (s.put h { hook with process := .exited }) else none
  | .readEnds _ =>
    if hook.task = .reading ∧ hook.cancelled = false ∧ hook.process = .exited then
      some (s.finish h hook false)
    else none
  | .readFails _ =>
    if hook.task = .reading ∧ hook.cancelled = false then some (s.finish h hook false) else none
  | .cancel _ => if hook.task = .done then none else some (s.cancel h)
  | .deliver _ =>
    if hook.cancelled = false then none
    else
      match hook.task with
      | .created => some (s.put h { hook with task := .done, cancelled := false, aborted := true })
      | .spawning =>
        if hook.process = .running then
          some (s.put h { hook with task := .unspawning, cancelled := false })
        else some (s.finish h hook true)
      | .reading =>
        if hook.process = .running then
          some (s.put h { hook with task := .cleaning, cancelled := false })
        else some (s.finish h hook true)
      | .unspawning => some (s.finish h hook true)
      | .cleaning => some (s.finish h hook true)
      | .done => none
  | .cleaned _ =>
    if (hook.task = .unspawning ∨ hook.task = .cleaning) ∧ hook.cancelled = false ∧
        hook.process ≠ .running then
      some (s.finish h hook true)
    else none
  | .cleanTimeout _ =>
    if hook.task = .cleaning ∧ hook.cancelled = false then some (s.finish h hook true) else none
  | _ => none

/-- `_interrupt_external_start`, after the hook it is about. -/
def stepRequest (r : ℕ) (request : Request) (h : ℕ) (hook : Hook) : Act → Option State
  | .readyWaits _ =>
    if request = .waiting h ∧ hook.ready then
      some (if hook.published = false then s.request r (.awaiting h)
        else if hook.task = .done then s.check r h hook
        else s.request r (.terming h))
    else none
  | .readyTimeout _ =>
    if request = .waiting h then some ((s.cancel h).request r (.cancelling h)) else none
  | .taskEnds _ =>
    if hook.task ≠ .done then none
    else
      match request with
      | .cancelling _ =>
        some (if hook.published ∧ hook.process = .running then s.request r .raised
          else s.leave r h)
      | .awaiting _ => some (s.leave r h)
      | .terming _ => some (if hook.aborted then s.request r .raised else s.check r h hook)
      | .killing _ => some (if hook.aborted then s.request r .raised else s.check r h hook)
      | _ => none
  | .termTimeout _ => if request = .terming h then some (s.request r (.killing h)) else none
  | .killTimeout _ => if request = .killing h then some (s.request r .raised) else none
  | .reaped _ =>
    if request = .reaping h ∧ hook.process ≠ .running then some (s.leave r h) else none
  | .reapTimeout _ => if request = .reaping h then some (s.request r .raised) else none
  | .abandon _ =>
    match request with
    | .cancelling _ => some (s.cancel h)
    | .awaiting _ => some (s.cancel h)
    | _ => some (s.request r .raised)
  | _ => none

/-- The hook that a request is about. -/
def Request.hook : Request → Option ℕ
  | waiting h => some h
  | cancelling h => some h
  | awaiting h => some h
  | terming h => some h
  | killing h => some h
  | reaping h => some h
  | _ => none

def State.onHook (h : ℕ) (a : Act) : Option State :=
  match s.hooks[h]? with
  | some hook => stepHook s h hook a
  | none => none

def State.onRequest (r : ℕ) (a : Act) : Option State :=
  match s.requests[r]? with
  | some request =>
    match request.hook with
    | some h =>
      match s.hooks[h]? with
      | some hook => stepRequest s r request h hook a
      | none => none
    | none => none
  | none => none

/-- A stop of the container begins: nothing to interrupt, a hook that is not a start, or one that
is. -/
def State.stop : State :=
  let t := { s with requests := s.requests ++ [.raised] }
  match s.table with
  | none => t.goOn s.requests.length none
  | some h =>
    match s.hooks[h]? with
    | none => t.goOn s.requests.length none
    | some hook =>
      if hook.task = .done then t.goOn s.requests.length none
      else if hook.action ≠ .start then t
      else if hook.published then t.request s.requests.length (.terming h)
      else t.request s.requests.length (.waiting h)

def step : Act → Option State
  | .start => if s.isFree then some (s.register .start) else none
  | .stop => some s.stop
  | .begin h => s.onHook h (.begin h)
  | .forks h => s.onHook h (.forks h)
  | .spawned h => s.onHook h (.spawned h)
  | .spawnFails h => s.onHook h (.spawnFails h)
  | .exits h => s.onHook h (.exits h)
  | .readEnds h => s.onHook h (.readEnds h)
  | .readFails h => s.onHook h (.readFails h)
  | .cancel h => s.onHook h (.cancel h)
  | .deliver h => s.onHook h (.deliver h)
  | .cleaned h => s.onHook h (.cleaned h)
  | .cleanTimeout h => s.onHook h (.cleanTimeout h)
  | .readyWaits r => s.onRequest r (.readyWaits r)
  | .readyTimeout r => s.onRequest r (.readyTimeout r)
  | .taskEnds r => s.onRequest r (.taskEnds r)
  | .termTimeout r => s.onRequest r (.termTimeout r)
  | .killTimeout r => s.onRequest r (.killTimeout r)
  | .reaped r => s.onRequest r (.reaped r)
  | .reapTimeout r => s.onRequest r (.reapTimeout r)
  | .abandon r => s.onRequest r (.abandon r)

def init : State := ⟨[], none, []⟩

/-! ## What holds in every run, and what may fail -/

/-- Every stop hook was started by a stop whose interruption returned. -/
def Launched : Prop :=
  ∀ (i : ℕ) (hook : Hook), s.hooks[i]? = some hook → hook.action = .stop →
    ∃ (r : ℕ) (h : Option ℕ), s.requests[r]? = some (.returned h (some i))

structure Sound : Prop where
  /-- No two processes at a time. -/
  exclusive : ∀ (i j : ℕ) (a b : Hook), s.hooks[i]? = some a → s.hooks[j]? = some b →
    a.process = .running → b.process = .running → i = j
  /-- Where an interruption returned, the task of its hook is done and the process has exited. -/
  interrupted : ∀ (r h : ℕ) (hook : Option ℕ), s.requests[r]? = some (.returned (some h) hook) →
    ∃ k : Hook, s.hooks[h]? = some k ∧ k.task = .done ∧ k.process ≠ .running
  /-- The entry in the table has a task that is not done. -/
  table : ∀ h, s.table = some h → ∃ k : Hook, s.hooks[h]? = some k ∧ k.task ≠ .done
  /-- An entry whose process is running is in the table. -/
  kept : ∀ (h : ℕ) (k : Hook), s.hooks[h]? = some k → k.process = .running → s.table = some h

/-- A task does not end while its process runs, neither by an exception, nor by a second cancellation
or a timeout while it awaits the child that it has killed; and it is not cancelled before it runs. -/
def Orderly : Act → Prop
  | .readFails h => ∀ k : Hook, s.hooks[h]? = some k → k.process ≠ .running
  | .deliver h => ∀ k : Hook, s.hooks[h]? = some k → k.task ≠ .created ∧
      (k.task = .unspawning ∨ k.task = .cleaning → k.process ≠ .running)
  | .cleanTimeout h => ∀ k : Hook, s.hooks[h]? = some k → k.process ≠ .running
  | _ => True

end SparkDeck.Hooks
