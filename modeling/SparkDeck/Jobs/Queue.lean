import Mathlib.Algebra.Group.Int.Defs
import Mathlib.Data.List.Basic

/-!
# The job queue of the controller

`submit_job`, `force_run`, `cancel_job`, `clear_finished`, `_tick` and `_run_inference`
(`manager.py`). The event loop runs them all: what is between two awaits is one step. `self.lock`
is never held across an await, so it is never waited for.

`_worker_loop` runs one `_tick` after the other. A tick visits the jobs it found pending, one after
the other, and awaits the readiness probe of one (`probing`) or the start of its container
(`starting`). The visits that await nothing are single steps as well, which only adds runs.

A job is known by its place in the order of submission: the random ids of `submit_job` are taken to
differ. What a job asks for and what it is answered are left out, as are the times; `sent` and
`starts` are not in the source: they count the requests that went to a backend for the job, and the
containers that were started or created for it.
-/

namespace SparkDeck.Jobs

inductive Status where
  | pending
  | dispatching
  | admissionWaiting
  | running
  | done
  | error
  | canceled
  deriving DecidableEq

/-- What `clear_finished` clears. -/
def Status.isFinished : Status → Bool
  | .done => true
  | .error => true
  | .canceled => true
  | _ => false

/-- What a tick dispatches. -/
def Status.isWaiting : Status → Bool
  | .pending => true
  | .dispatching => true
  | _ => false

/-- What `cancel_job` cancels. -/
def Status.isCancelable : Status → Bool
  | .pending => true
  | .dispatching => true
  | .admissionWaiting => true
  | _ => false

structure Job where
  model : String
  container : Option String
  status : Status
  override : Bool
  attempts : ℕ
  /-- `_cancel_event` is set. -/
  cancel : Bool
  /-- It is in `self.jobs`. -/
  listed : Bool
  sent : ℕ
  starts : ℕ
  deriving DecidableEq

/-- `list_containers` -/
structure Container where
  name : String
  running : Bool
  /-- `_container_model_ids` -/
  models : List String
  deriving DecidableEq

/-- The container that a job is for. The index by name keeps the last container of a name. -/
def target (containers : List Container) (job : Job) : Option Container :=
  match job.container.bind fun n => containers.reverse.find? (·.name = n) with
  | some c => some c
  | none =>
    match containers.find? fun c => c.running && decide (job.model ∈ c.models) with
    | some c => some c
    | none => containers.find? fun c => !c.running && decide (job.model ∈ c.models)

/-- `_tick` -/
inductive Tick where
  | idle
  /-- It awaits `list_containers`. -/
  | listing (ids : List ℕ)
  | visiting (containers : List Container) (ids : List ℕ)
  /-- It awaits `_check_ready`. -/
  | probing (i : ℕ) (containers : List Container) (ids : List ℕ)
  /-- It awaits `start_container`, or `create_container`. -/
  | starting (i : ℕ) (create : Bool) (containers : List Container) (ids : List ℕ)
  deriving DecidableEq

/-- The job on whose behalf it awaits. -/
def Tick.job : Tick → Option ℕ
  | .probing i _ _ => some i
  | .starting i _ _ _ => some i
  | _ => none

inductive TaskPc where
  | spawned
  /-- It awaits `_admit_vllm_target`. -/
  | admitting
  /-- It awaits the backend's answer. -/
  | sending
  | ended
  deriving DecidableEq

/-- `_run_inference` -/
structure Task where
  job : ℕ
  pc : TaskPc
  deriving DecidableEq

def Task.active (t : Task) : Bool := t.pc ≠ .ended

structure State where
  jobs : List Job
  queue : List ℕ
  tick : Tick
  tasks : List Task
  deriving DecidableEq

inductive Act where
  | submit (model : String) (container : Option String)
  | forceRun (i : ℕ)
  | cancel (i : ℕ)
  | clearFinished
  | tick
  /-- `list_containers` raises, or answers. -/
  | inventory (containers : Option (List Container))
  /-- The tick goes on to the next job; whether the model fits. -/
  | visit (fits : Bool)
  | probed (ready : Bool)
  /-- The container is started, or created. -/
  | starts
  | started (name : String)
  | startFails
  | begin (k : ℕ)
  /-- `_resolve_vllm_target` starts the container. -/
  | wakes (k : ℕ)
  | admitted (k : ℕ)
  | aborted (k : ℕ)
  | admissionFails (k : ℕ)
  | answered (k : ℕ)
  | answerFails (k : ℕ)

variable (maxRetries : ℤ) (s : State)

def State.put (i : ℕ) (job : Job) : State := { s with jobs := s.jobs.set i job }

def State.setTask (k : ℕ) (t : Task) : State := { s with tasks := s.tasks.set k t }

/-- `self.queue.remove` -/
def State.dequeue (i : ℕ) : State := { s with queue := s.queue.erase i }

/-- `submit_job` -/
def State.submit (model : String) (container : Option String) : State :=
  { s with
    jobs := s.jobs ++ [⟨model, container, .pending, false, 0, false, true, 0, 0⟩]
    queue := s.queue ++ [s.jobs.length] }

/-- `cancel_job` -/
def State.cancel (i : ℕ) : State :=
  match s.jobs[i]? with
  | some job =>
    if job.listed && job.status.isCancelable then
      (s.put i { job with cancel := true, status := .canceled }).dequeue i
    else s
  | none => s

/-- `clear_finished` -/
def State.clearFinished : State :=
  { s with jobs := s.jobs.map fun j => if j.status.isFinished then { j with listed := false } else j }

/-- The jobs that a tick dispatches. -/
def State.waiting : List ℕ :=
  s.queue.filter fun i =>
    match s.jobs[i]? with
    | some job => job.listed && job.status.isWaiting
    | none => false

/-- What a tick does with a job, up to its next await. -/
def State.visit (i : ℕ) (containers : List Container) (ids : List ℕ) (fits : Bool) : State :=
  match s.jobs[i]? with
  | some job =>
    if job.listed && job.status.isWaiting then
      if (target containers job).any (·.running) then
        { s with tick := .probing i containers ids }
      else if job.override || fits || containers.all (!·.running) then
        { s with tick := .starting i (target containers job).isNone containers ids }
      else { s with tick := .visiting containers ids }
    else { s with tick := .visiting containers ids }
  | none => { s with tick := .visiting containers ids }

/-- The readiness probe has returned. -/
def State.probed (i : ℕ) (job : Job) (ready : Bool) : State :=
  if ready then
    { s.put i { job with status := .admissionWaiting } with tasks := s.tasks ++ [⟨i, .spawned⟩] }
  else s.put i { job with status := .dispatching }

/-- The end of `_run_inference`: a finished job leaves the queue. -/
def State.finish (k i : ℕ) (job : Job) : State :=
  let s' := (s.put i job).setTask k ⟨i, .ended⟩
  if job.status.isFinished then s'.dequeue i else s'

/-- An attempt has failed. -/
def State.retry (k i : ℕ) (job : Job) : State :=
  if (job.attempts : ℤ) ≤ maxRetries then
    let s' := s.finish k i { job with status := .pending }
    if i ∈ s'.queue then s' else { s' with queue := s'.queue ++ [i] }
  else s.finish k i { job with status := .error }

/-- What the tick does. -/
def State.stepTick : Act → Option State
  | .tick =>
    if s.tick = .idle then
      some (if s.waiting = [] then s else { s with tick := .listing s.waiting })
    else none
  | .inventory containers =>
    match s.tick with
    | .listing ids =>
      some { s with tick := (containers.map fun cs => .visiting cs ids).getD .idle }
    | _ => none
  | .visit fits =>
    match s.tick with
    | .visiting cs (i :: ids) => some (s.visit i cs ids fits)
    | .visiting _ [] => some { s with tick := .idle }
    | _ => none
  | .probed ready =>
    match s.tick with
    | .probing i cs ids =>
      (s.jobs[i]?).map fun job => { s.probed i job ready with tick := .visiting cs ids }
    | _ => none
  | .starts =>
    match s.tick with
    | .starting i _ _ _ =>
      (s.jobs[i]?).map fun job => s.put i { job with starts := job.starts + 1 }
    | _ => none
  | .started name =>
    match s.tick with
    | .starting i create cs ids =>
      (s.jobs[i]?).map fun job =>
        { s.put i { job with
            container := if create then some name else job.container
            status := .dispatching } with
          tick := .visiting cs ids }
    | _ => none
  | .startFails =>
    match s.tick with
    | .starting i _ cs ids =>
      (s.jobs[i]?).map fun job =>
        { s.put i { job with status := .error } with tick := .visiting cs ids }
    | _ => none
  | _ => none

/-- What the task does, which is at `pc` with the job at `i`. -/
def State.stepTask (k : ℕ) (pc : TaskPc) (i : ℕ) (job : Job) : Act → Option State
  | .begin _ =>
    if pc = .spawned then
      some (s.setTask k ⟨i, if job.listed then .admitting else .ended⟩)
    else none
  | .wakes _ =>
    if pc = .admitting then some (s.put i { job with starts := job.starts + 1 }) else none
  | .admitted _ =>
    if pc = .admitting then
      some <|
        if job.cancel then s.finish k i { job with status := .canceled }
        else
          (s.put i { job with
            status := .running
            attempts := job.attempts + 1
            sent := job.sent + 1 }).setTask k ⟨i, .sending⟩
    else none
  | .aborted _ =>
    if pc = .admitting ∧ job.cancel then
      some (s.finish k i { job with status := .canceled })
    else none
  | .admissionFails _ => if pc = .admitting then some (s.retry maxRetries k i job) else none
  | .answered _ =>
    if pc = .sending then some (s.finish k i { job with status := .done }) else none
  | .answerFails _ => if pc = .sending then some (s.retry maxRetries k i job) else none
  | _ => none

/-- The task that an action is about. -/
def Act.task : Act → Option ℕ
  | .begin k => some k
  | .wakes k => some k
  | .admitted k => some k
  | .aborted k => some k
  | .admissionFails k => some k
  | .answered k => some k
  | .answerFails k => some k
  | _ => none

def step (s : State) (a : Act) : Option State :=
  match a with
  | .submit model container => some (s.submit model container)
  | .forceRun i =>
    some <|
      match s.jobs[i]? with
      | some job => if job.listed then s.put i { job with override := true } else s
      | none => s
  | .cancel i => some (s.cancel i)
  | .clearFinished => some s.clearFinished
  | _ =>
    match a.task with
    | none => s.stepTick a
    | some k =>
      match s.tasks[k]? with
      | some t =>
        match s.jobs[t.job]? with
        | some job => s.stepTask maxRetries k t.pc t.job job a
        | none => none
      | none => none

/-- Nothing was submitted. -/
def init : State := ⟨[], [], .idle, []⟩

/-! ## What is claimed -/

/-- What is claimed of a state. -/
structure Orderly (s : State) : Prop where
  alone : ∀ (k k' : ℕ) (t t' : Task), s.tasks[k]? = some t → s.tasks[k']? = some t' →
    t.active → t'.active → t.job = t'.job → k = k'
  bounded : ∀ job ∈ s.jobs, 0 < job.sent → (job.sent : ℤ) ≤ maxRetries + 1
  queued : ∀ (i : ℕ) (job : Job), s.jobs[i]? = some job → job.status.isWaiting →
    i ∈ s.queue
  finished : ∀ (i : ℕ) (job : Job), s.jobs[i]? = some job → job.status.isFinished →
    i ∉ s.queue

/-- A finished job stays as it is, and nothing is done for a canceled one. -/
structure Job.Lasts (job job' : Job) : Prop where
  status : job.status.isFinished → job'.status = job.status
  cancel : job.cancel → job'.cancel
  sent : job.cancel → job'.sent = job.sent
  starts : job.cancel → job'.starts = job.starts

/-- What is claimed of a state and one after it. -/
def Lasting (s s' : State) : Prop :=
  ∀ (i : ℕ) (job : Job), s.jobs[i]? = some job → ∃ job', s'.jobs[i]? = some job' ∧ job.Lasts job'

/-- The task's job is not canceled. -/
def State.live (k : ℕ) : Prop := ∀ t ∈ s.tasks[k]?, ∀ job ∈ s.jobs[t.job]?, job.cancel = false

/-- What nobody sees to: that a job is not canceled while the tick awaits something for it; that the
start of a container does not raise; that an inference task whose job was canceled neither wakes a
container nor fails otherwise; and that `max_retries` is not negative when a job is sent. -/
def Plain (s : State) : Act → Prop
  | .cancel i => s.tick.job ≠ some i
  | .startFails => False
  | .wakes k => s.live k
  | .admissionFails k => s.live k
  | .admitted k => s.live k → 0 ≤ maxRetries
  | _ => True

end SparkDeck.Jobs
