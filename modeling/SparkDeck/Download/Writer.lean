import Mathlib.Data.Finset.Insert
import SparkDeck.Lib.Transition

/-!
# Download operations on an agent

Model of the agent's side of a cancelable download: `_download_model_process`,
`_supervised_download_model_process`, `_run_supervised_download_attempt`,
`cancel_download_operation`, the cancellation registry on disk, and the worker process with its
guard (`sparkdeck/virtual_nas.py:786-797`, `:1393-1425`, `:1481-1506`, `:1613-1807`,
`sparkdeck/hf_download_worker.py:14-41`).

A call of `_download_model_process` goes through the `Stage`s below. It waits for the model lock and
the bandwidth lock in `delayed` and may leave it at any time: what the locks would forbid is allowed
here. The environment decides when a thread, a launch or a writer ends, when the stall watcher
fires, when a stop attempt fails, and when a task is cancelled.

A worker process is `booting` until it has its guard (`_guard_parent_lifetime`): it then dies with
its parent, and it never gets the guard when its parent is gone. `runs` is a worker that writes or
can still come to write. A restart of the agent keeps only what is on disk.
-/

namespace SparkDeck.Download

variable {O : Type*}

/-- An entry of `_download_operations`; an entry that is absent is the default. -/
structure Flags where
  cancel : Bool
  done : Bool
  active : Bool
  /-- `"stop_error" in state`. -/
  stopError : Bool

def Flags.new : Flags := ⟨false, false, false, false⟩

/-- How an attempt leaves its `finally`. -/
inductive After where
  /-- It returns, or raises what is not `DownloadStalled`. -/
  | leave
  | stalled
  deriving DecidableEq

inductive Stage where
  /-- Waiting for the model lock or the bandwidth lock. -/
  | delayed
  /-- In `to_thread(self._reclaim_if_foreign, ...)`. -/
  | reclaiming
  /-- In `shield(launch)`, or in `_await_uncancelable(launch)` after an interruption. -/
  | launching (interrupted : Bool)
  /-- In `asyncio.wait({completion, *watch_tasks})`. -/
  | running (p : ℕ)
  /-- The writer ended by itself; its snapshot is recorded. -/
  | reading (p : ℕ)
  /-- In the `finally` of the attempt: `finish_writer()`, then `completion`. -/
  | finishing (p : Option ℕ) (after : After)
  /-- In `wait_for(state["cancel"].wait(), backoff)`. -/
  | backoff
  | ended
  deriving DecidableEq

/-- The call has `state["active"]`. -/
def Stage.admitted : Stage → Bool
  | .delayed | .ended => false
  | _ => true

/-- The process the call has to see exit. -/
def Stage.process : Stage → Option ℕ
  | .running p | .reading p => some p
  | .finishing p _ => p
  | _ => none

/-- The next thing the call does with a process is to launch one. -/
def Stage.launches : Stage → Bool
  | .delayed | .reclaiming | .launching _ | .backoff => true
  | _ => false

structure Call (O : Type*) where
  op : O
  /-- Attempts left, this one included. -/
  left : ℕ
  stage : Stage

inductive Life where
  /-- Without its guard. -/
  | booting
  | writing
  | exited
  deriving DecidableEq

structure Process (O : Type*) where
  op : O
  /-- The generation of the agent that launched it. -/
  parent : ℕ
  life : Life

/-- Where a call of `cancel_download_operation` is. -/
inductive Waiter where
  /-- In `state["done"].wait()`. -/
  | waiting
  /-- `done` was set; its turn is to come. -/
  | woken
  | over
  deriving DecidableEq

structure Cancel (O : Type*) where
  op : O
  waiter : Waiter

structure Agent (O : Type*) where
  /-- How often the agent was started. -/
  generation : ℕ
  /-- `_download_tombstone_error`. -/
  broken : Bool
  /-- `_canceled_download_ids`. -/
  tombstones : Finset O
  /-- `virtual_nas_canceled_downloads.json`. -/
  file : Finset O
  ops : O → Flags
  calls : List (Call O)
  cancels : List (Cancel O)
  processes : List (Process O)
  /-- History: the operations of which a cancellation returned. -/
  confirmed : Finset O

namespace Agent

def init : Agent O := ⟨0, false, ∅, ∅, fun _ => .new, [], [], [], ∅⟩

variable (a : Agent O)

/-- The worker writes, or can come to write. -/
def runs (p : Process O) : Bool :=
  p.life = .writing || p.life = .booting && p.parent = a.generation

def exited (p : ℕ) : Bool := a.processes[p]?.all (·.life = .exited)

def goto (c : ℕ) (call : Call O) (st : Stage) : Agent O :=
  { a with calls := a.calls.set c { call with stage := st } }

variable [DecidableEq O]

def setFlags (op : O) (f : Flags) : Agent O := { a with ops := Function.update a.ops op f }

/-- The `finally` of `_supervised_download_model_process`. -/
def conclude (c : ℕ) (call : Call O) : Agent O :=
  { (a.setFlags call.op { a.ops call.op with active := false, done := true }).goto c call .ended
    with
    cancels := a.cancels.map fun k =>
      if k.op = call.op ∧ k.waiter = .waiting then { k with waiter := .woken } else k }

/-- The checks of `_supervised_download_model_process`, and its entry into the first attempt. -/
def supervise (c : ℕ) (call : Call O) : Agent O :=
  let f := a.ops call.op
  if a.broken || call.op ∈ a.tombstones || f.active || f.cancel then a.goto c call .ended
  else (a.setFlags call.op { f with done := false, active := true }).goto c call .reclaiming

/-- The launch gives a process. -/
def spawn (c : ℕ) (call : Call O) (interrupted : Bool) : Agent O :=
  let p := a.processes.length
  let f := a.ops call.op
  let a := { a with processes := a.processes ++ [(⟨call.op, a.generation, .booting⟩ : Process O)] }
  if interrupted then
    (a.setFlags call.op { f with cancel := true }).goto c call (.finishing (some p) .leave)
  else a.goto c call (.running p)

/-- After `finish_writer()` and `completion`. -/
def finished (c : ℕ) (call : Call O) (after : After) (error : Bool) : Agent O :=
  let f := a.ops call.op
  let a := a.setFlags call.op { f with stopError := error }
  if after = .leave || error || f.cancel || call.left ≤ 1 then a.conclude c call
  else a.goto c { call with left := call.left - 1 } .backoff

/-- `cancel_download_operation`, up to its first suspension. -/
def cancel (op : O) (saved : Bool) : Agent O :=
  if a.broken then a
  else
    let a := { a with tombstones := insert op a.tombstones }
    -- `_atomic_json_write` raised
    if !saved then a
    else
      let f := a.ops op
      let a := { a.setFlags op { f with cancel := true } with file := a.tombstones }
      if f.active then { a with cancels := a.cancels ++ [⟨op, .waiting⟩] }
      else if f.stopError then a
      else { a with confirmed := insert op a.confirmed }

/-- `cancel_download_operation`, after `done`. -/
def confirm (k : ℕ) (call : Cancel O) : Agent O :=
  let a' := { a with cancels := a.cancels.set k { call with waiter := .over } }
  if (a.ops call.op).stopError then a' else { a' with confirmed := insert call.op a.confirmed }

/-- A new agent process: the guarded workers of the old one die with it. -/
def restart (readable : Bool) : Agent O where
  generation := a.generation + 1
  broken := !readable
  tombstones := if readable then a.file else ∅
  file := a.file
  ops := fun _ => .new
  calls := a.calls.map fun c => { c with stage := .ended }
  cancels := a.cancels.map fun k => { k with waiter := .over }
  processes := a.processes.map fun p => if p.life = .writing then { p with life := .exited } else p
  confirmed := a.confirmed

end Agent

/-- What a call of `_download_model_process` does next. -/
inductive Turn where
  /-- It has its locks. -/
  | supervise
  | reclaimed
  | spawned
  /-- What it is at returns or raises, with no process or with the one it has. -/
  | leave
  /-- Its task is cancelled. -/
  | throw
  /-- It sees `state["cancel"]`. -/
  | stopSeen
  /-- It sees that the writer ended. -/
  | completed
  /-- It sees that the writer stalled. -/
  | stalled
  /-- `_stop_download_process` fails in `finish_writer`. -/
  | stopFailed
  /-- The writer has exited; `completion` may have raised. -/
  | finished (error : Bool)
  /-- The backoff is over. -/
  | retry

variable [DecidableEq O]

/-- A turn of call `c`. -/
def Agent.turn (a : Agent O) (c : ℕ) (call : Call O) (t : Turn) : Option (Agent O) :=
  let stop := (a.ops call.op).cancel
  match t, call.stage with
  | .supervise, .delayed => some (a.supervise c call)
  | .reclaimed, .reclaiming =>
    some (a.goto c call (if stop then .finishing none .leave else .launching false))
  | .spawned, .launching i => some (a.spawn c call i)
  | .leave, .reclaiming | .leave, .launching _ => some (a.goto c call (.finishing none .leave))
  | .leave, .running p | .leave, .reading p => some (a.goto c call (.finishing (some p) .leave))
  | .throw, .delayed => some (a.goto c call .ended)
  | .throw, .reclaiming => some (a.goto c call (.finishing none .leave))
  | .throw, .launching _ => some (a.goto c call (.launching true))
  | .throw, .running p | .throw, .reading p => some (a.goto c call (.finishing (some p) .leave))
  | .throw, .finishing _ _ => some a
  | .throw, .backoff => some (a.conclude c call)
  | .stopSeen, .running p => if stop then some (a.goto c call (.finishing (some p) .leave)) else none
  | .stopSeen, .backoff => if stop then some (a.conclude c call) else none
  | .completed, .running p =>
    if a.exited p then
      some (a.goto c call (if stop then .finishing (some p) .leave else .reading p))
    else none
  | .stalled, .running p =>
    some (a.goto c call (.finishing (some p) (if stop then .leave else .stalled)))
  | .stopFailed, .finishing (some p) _ =>
    if a.exited p then none
    else some (a.setFlags call.op { a.ops call.op with stopError := true })
  | .finished error, .finishing p after =>
    if p.all a.exited then some (a.finished c call after error) else none
  | .retry, .backoff =>
    some (a.goto c call (if stop then .finishing none .leave else .reclaiming))
  | _, _ => none

inductive Act (O : Type*) where
  /-- `_download_model_process`, a replay or not, with its number of attempts. -/
  | start (op : O) (attempts : ℕ)
  | turn (c : ℕ) (t : Turn)
  /-- A worker gets its guard. -/
  | guarded (p : ℕ)
  | exit (p : ℕ)
  | cancel (op : O) (saved : Bool)
  | confirm (k : ℕ)
  /-- `wait_for` times out. -/
  | timeout (k : ℕ)
  | restart (readable : Bool)

def Agent.step (a : Agent O) : Act O → Option (Agent O)
  | .start op attempts => some { a with calls := a.calls ++ [⟨op, attempts, .delayed⟩] }
  | .turn c t => a.calls[c]?.bind fun call => a.turn c call t
  | .guarded p =>
    a.processes[p]?.bind fun q =>
      if q.life = .booting && q.parent = a.generation then
        some { a with processes := a.processes.set p { q with life := .writing } }
      else none
  | .exit p =>
    a.processes[p]?.map fun q => { a with processes := a.processes.set p { q with life := .exited } }
  | .cancel op saved => some (a.cancel op saved)
  | .confirm k =>
    a.cancels[k]?.bind fun call => if call.waiter = .woken then some (a.confirm k call) else none
  | .timeout k =>
    a.cancels[k]?.map fun call => { a with cancels := a.cancels.set k { call with waiter := .over } }
  | .restart readable => some (a.restart readable)

end SparkDeck.Download
