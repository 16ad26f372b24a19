import Mathlib.Data.List.Basic

/-!
# The runs of the benchmark runner

`start_run`, `_spawn`, `_monitor_run`, `cancel_run`, `delete_run` and the loading of the runs in
`BenchmarkRunnerService` (`sparkdeck/benchmark_runner.py`). What is between two awaits is one step;
`_start_lock` lets one `start_run` in at a time.

The process of a run may be there before `create_subprocess_exec` has returned (`forks`). A call of
`cancel_run` that found the process awaits its end (`stopping` counts these calls); `returned` is not
in the source: some call of `cancel_run` for the run has returned. A run is known by its place in the
order of registration: `mkdir` refuses an id that is there. A restart is an end of the service at any
point, after which the runs are loaded from their files; that a file cannot be read is left out, and
so are the report, the progress and the configuration.
-/

namespace SparkDeck.Benchmark

inductive Status where
  | running
  | completed
  | failed
  | cancelled
  deriving DecidableEq

/-- `RUN_ACTIVE_STATES`; nothing writes "pending". -/
def Status.isActive : Status → Bool
  | .running => true
  | _ => false

inductive Process where
  | none
  | alive
  | exited
  deriving DecidableEq

/-- `_monitor_run` -/
inductive Monitor where
  | none
  /-- The task was created and has not run yet. -/
  | spawned
  | polling
  /-- It was cancelled and stops the process. -/
  | stopping
  | ended
  deriving DecidableEq

def Monitor.isLive : Monitor → Bool
  | .spawned => true
  | .polling => true
  | .stopping => true
  | _ => false

structure Run where
  status : Status
  /-- `_cancel_requested` -/
  cancelRequested : Bool
  /-- It is in `self.runs`. -/
  listed : Bool
  /-- The status in `state.json`. -/
  file : Option Status
  process : Process
  /-- It is in `self._processes`. -/
  tracked : Bool
  monitor : Monitor
  stopping : ℕ
  returned : Bool
  deriving DecidableEq

/-- `_start_run_locked` -/
inductive Start where
  | idle
  /-- It awaits `detect`. -/
  | detecting
  /-- It awaits `served_models`. -/
  | listing
  /-- The run is registered, and it awaits the process. -/
  | spawning (i : ℕ)
  deriving DecidableEq

structure State where
  runs : List Run
  start : Start
  deriving DecidableEq

inductive Act where
  | start
  | detected (ok : Bool)
  /-- The model is served, and the state was written. -/
  | served (ok saved : Bool)
  | forks
  | spawned
  /-- `OSError`; the state was written. -/
  | spawnFails (saved : Bool)
  /-- A cancellation, or any other exception. -/
  | interrupted
  | cancel (i : ℕ)
  | cancelReturns (i : ℕ)
  /-- The call of `cancel_run` is cancelled. -/
  | cancelAborted (i : ℕ)
  | delete (i : ℕ)
  /-- The directory could not be removed; whether the state is gone. -/
  | deleteFails (i : ℕ) (gone : Bool)
  | exits (i : ℕ)
  | polls (i : ℕ)
  /-- The process has ended; whether there is a report, and the state was written. -/
  | finish (i : ℕ) (ok saved : Bool)
  /-- The monitor raises. -/
  | crash (i : ℕ) (saved : Bool)
  /-- The monitor is cancelled. -/
  | shutdown (i : ℕ)
  | stopped (i : ℕ) (saved : Bool)
  | restart

variable (s : State)

def State.put (i : ℕ) (run : Run) : State := { s with runs := s.runs.set i run }

/-- `active_run` -/
def State.anyActive : Bool := s.runs.any fun run => run.listed && run.status.isActive

/-- A status that is not active is recorded, and written if it can be. -/
def Run.record (run : Run) (status : Status) (saved : Bool) : Run :=
  { run with status := status, file := if saved then some status else run.file }

/-- A run that was registered. -/
def Run.new : Run := ⟨.running, false, true, some .running, .none, false, .none, 0, false⟩

/-- `__init__` -/
def Run.load (run : Run) : Run :=
  match run.file with
  | some status =>
    { run with
      status := if status.isActive then .failed else status
      file := some (if status.isActive then .failed else status)
      cancelRequested := false, listed := true, tracked := false, monitor := .none, stopping := 0 }
  | none =>
    { run with
      cancelRequested := false, listed := false, tracked := false, monitor := .none, stopping := 0 }

/-- `start_run` -/
def State.stepStart : Act → Option State
  | .start => if s.start = .idle then some { s with start := .detecting } else none
  | .detected ok =>
    if s.start = .detecting then
      some { s with start := if ok && !s.anyActive then .listing else .idle }
    else none
  | .served ok saved =>
    if s.start = .listing then
      some <|
        if ok && saved then { runs := s.runs ++ [Run.new], start := .spawning s.runs.length }
        else { s with start := .idle }
    else none
  | .forks =>
    match s.start with
    | .spawning i =>
      match s.runs[i]? with
      | some run =>
        if run.process = .none then some (s.put i { run with process := .alive }) else none
      | none => none
    | _ => none
  | .spawned =>
    match s.start with
    | .spawning i =>
      match s.runs[i]? with
      | some run =>
        if run.process ≠ .none then
          some { s.put i { run with tracked := true, monitor := .spawned } with start := .idle }
        else none
      | none => none
    | _ => none
  | .spawnFails saved =>
    match s.start with
    | .spawning i =>
      match s.runs[i]? with
      | some run =>
        if run.process = .none then some { s.put i (run.record .failed saved) with start := .idle }
        else none
      | none => none
    | _ => none
  | .interrupted =>
    match s.start with
    | .spawning i =>
      match s.runs[i]? with
      | some run =>
        some { s.put i { run with
            process := if run.process = .alive then .exited else run.process } with
          start := .idle }
      | none => none
    | _ => some { s with start := .idle }
  | _ => none

/-- What is done with the run at `i`. -/
def Run.step (run : Run) : Act → Option Run
  | .cancel _ =>
    if run.listed && run.status.isActive then
      some <|
        if run.tracked && decide (run.process = .alive) then
          { run with cancelRequested := true, stopping := run.stopping + 1 }
        else { run with cancelRequested := true, returned := true }
    else some run
  | .cancelReturns _ =>
    if 0 < run.stopping ∧ run.process ≠ .alive then
      some { run with stopping := run.stopping - 1, returned := true }
    else none
  | .cancelAborted _ =>
    if 0 < run.stopping then some { run with stopping := run.stopping - 1 } else none
  | .delete _ =>
    some <|
      if run.listed && !run.status.isActive then { run with listed := false, file := none } else run
  | .deleteFails _ gone =>
    some <|
      if run.listed && !run.status.isActive && gone then { run with file := none } else run
  | .exits _ => if run.process = .alive then some { run with process := .exited } else none
  | .polls _ => if run.monitor = .spawned then some { run with monitor := .polling } else none
  | .finish _ ok saved =>
    if run.monitor = .polling ∧ run.process ≠ .alive then
      some <|
        { run with cancelRequested := false, tracked := false, monitor := .ended }.record
          (if run.cancelRequested then .cancelled else if ok then .completed else .failed) saved
    else none
  | .crash _ saved =>
    if run.monitor = .polling then
      some ({ run with monitor := .ended }.record .failed saved)
    else none
  | .shutdown _ =>
    match run.monitor with
    | .spawned => some { run with monitor := .ended }
    | .polling => some { run with tracked := false, monitor := .stopping }
    | _ => none
  | .stopped _ saved =>
    if run.monitor = .stopping ∧ run.process ≠ .alive then
      some ({ run with monitor := .ended }.record .failed saved)
    else none
  | _ => none

/-- The run that an action is about. -/
def Act.run : Act → Option ℕ
  | .cancel i => some i
  | .cancelReturns i => some i
  | .cancelAborted i => some i
  | .delete i => some i
  | .deleteFails i _ => some i
  | .exits i => some i
  | .polls i => some i
  | .finish i _ _ => some i
  | .crash i _ => some i
  | .shutdown i => some i
  | .stopped i _ => some i
  | _ => none

def step (s : State) (a : Act) : Option State :=
  match a with
  | .restart => some ⟨s.runs.map Run.load, .idle⟩
  | _ =>
    match a.run with
    | some i =>
      match s.runs[i]? with
      | some run => (run.step a).map fun run' => s.put i run'
      | none => none
    | none => s.stepStart a

/-- No run was started. -/
def init : State := ⟨[], .idle⟩

/-! ## What is claimed -/

/-- What is claimed of a state. -/
structure Sound (s : State) : Prop where
  one : ∀ (i j : ℕ) (run run' : Run), s.runs[i]? = some run → s.runs[j]? = some run' →
    run.listed → run'.listed → run.status.isActive →
    run'.status.isActive → i = j
  watched : ∀ (i : ℕ) (run : Run), s.runs[i]? = some run → run.listed →
    run.status.isActive → run.monitor.isLive ∨ s.start = .spawning i
  stopped : ∀ run ∈ s.runs, run.returned → run.process ≠ .alive
  cancelled : ∀ run ∈ s.runs, run.returned = true → run.status.isActive = false →
    run.status = .cancelled

/-- What is claimed of a run and of what becomes of it. -/
structure Run.Lasts (run run' : Run) : Prop where
  status : run.status.isActive = false → run'.status = run.status
  deleted : run.listed = false → run'.listed = false

/-- What is claimed of a state and one after it. -/
def Lasting (s s' : State) : Prop :=
  ∀ (i : ℕ) (run : Run), s.runs[i]? = some run → ∃ run', s'.runs[i]? = some run' ∧ run.Lasts run'

/-- A call of `cancel_run` has returned or is about to. -/
def Run.condemned (run : Run) : Bool := run.returned || decide (0 < run.stopping)

/-- It can be cancelled: its process is in the table. -/
def State.attended (i : ℕ) : Prop :=
  s.start ≠ .spawning i ∧ ∀ run ∈ s.runs[i]?, run.monitor ≠ .stopping

/-- What nobody sees to: that `start_run` is not interrupted once its run is registered; that a run
is not cancelled before its process is in the table, or after the service's end has taken it out;
that a run that was cancelled is not cut short by an exception of its monitor or the end of the
service; and that the service does not end before the status of a run is on file. -/
def Plain (s : State) : Act → Prop
  | .interrupted => ∀ i < s.runs.length, s.start ≠ .spawning i
  | .cancel i => s.attended i
  | .crash i _ => ∀ run ∈ s.runs[i]?, run.condemned = false
  | .shutdown i => ∀ run ∈ s.runs[i]?, run.monitor ≠ .spawned ∧ run.condemned = false
  | .restart => ∀ run ∈ s.runs, (run.status.isActive = true → run.returned = false) ∧
      (run.status.isActive = false → ∀ status ∈ run.file, status = run.status)
  | _ => True

end SparkDeck.Benchmark
