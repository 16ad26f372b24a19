import Mathlib.Data.List.Nodup

/-!
# The transfer queue

Model of the queue of `sparkdeck/virtual_nas.py`: `_queue_transfer` and `_queue_download_and_transfer`
(`:3776-4148`), `cancel_transfer` and `_cancel_download_dependents` (`:4150-4186`), the dispatcher
(`:4385-4459`), the life of `_run_download` and `_run_transfer` (`:4557-5075`) with
`_await_download_with_cancel` (`:4188-4239`), and `start`, `stop_dispatcher` and `stop` (`:1002-1025`).

`Job` has the fields that are set when a job is queued; `status` and `download_cancelable` are by id,
and the fields that nothing here reads (bytes, times, phases, error texts) are left out. `M`, `F` and the
revisions are values that `validate_model_id`, `_validate_repo_relative_file` and `validate_revision`
return; each returns such a value unchanged.

A step runs without an await. A runner is one task of `_run_download` or `_run_transfer`: it is
`created` by the dispatcher and marks its job as running with its first step. What a runner does to its
cache and to other nodes is its choice of the next `Act`. A runner whose task is cancelled may be
interrupted wherever it awaits, also where `_await_uncancelable` would hold the cancellation back.
-/

namespace SparkDeck.Vnas.Queue

open Function

inductive Kind where
  | download
  | transfer
  deriving DecidableEq

inductive Status where
  | queued
  | running
  | completed
  | failed
  | canceled
  deriving DecidableEq

namespace Status

/-- `_ACTIVE_TRANSFER_STATES` -/
def active : Status → Bool
  | .queued | .running => true
  | _ => false

/-- `_FINAL_TRANSFER_STATES` -/
def final : Status → Bool
  | .completed | .failed | .canceled => true
  | _ => false

/-- Of a dependency: it will not complete. -/
def dead : Status → Bool
  | .failed | .canceled => true
  | _ => false

theorem final_eq_false_of_active {s : Status} (h : s.active = true) : s.final = false := by
  cases s <;> first | rfl | cases h

end Status

structure Job (I N M F : Type*) where
  id : I
  kind : Kind
  model : M
  /-- `none` is "huggingface". -/
  source : Option N
  target : N
  revision : Option String
  requestedRevision : Option String
  selectedFiles : Option (List F)
  dependsOn : Option I
  /-- `workflow_id` is set. -/
  workflow : Bool
  deriving DecidableEq

namespace Job

variable {I N M F : Type*}

/-- `_job_endpoints` -/
def endpoints (j : Job I N M F) : List N :=
  match j.kind with
  | .download => [j.target]
  | .transfer => j.target :: j.source.toList

theorem target_mem_endpoints (j : Job I N M F) : j.target ∈ j.endpoints := by
  unfold endpoints
  split <;> exact List.mem_cons_self

/-- `bool(job.get("selected_files"))` -/
def selective (j : Job I N M F) : Bool := !(j.selectedFiles.getD []).isEmpty

end Job

/-- `_is_commit_sha`, of a revision without blanks. -/
def isCommitSha (revision : String) : Bool :=
  revision.length = 40 &&
    revision.toList.all fun c => c.isDigit || 'a' ≤ c ∧ c ≤ 'f' || 'A' ≤ c ∧ c ≤ 'F'

/-! ## Requests -/

inductive Request (N M F : Type*) where
  | transfer (model : M) (source : N) (targets : List N) (revision requested : Option String)
    (workflow : Bool)
  | download (model : M) (revision : String) (requested : Option String) (node : N) (additional : List N)
    (targets : List N) (source : Option N) (files : Option (List F)) (workflow : Bool)

namespace Request

variable {I N M F : Type*} [DecidableEq N] [DecidableEq F]

def model : Request N M F → M
  | .transfer m .. | .download m .. => m

/-- `download_nodes` -/
def downloadNodes : Request N M F → List N
  | .transfer .. => []
  | .download _ _ _ n more .. => (n :: more).eraseDups

def targets : Request N M F → List N
  | .transfer _ _ ts .. | .download _ _ _ _ _ ts .. => ts.eraseDups

/-- `transfer_source` -/
def source : Request N M F → N
  | .transfer _ s .. => s
  | .download _ _ _ n _ _ s .. => s.getD n

/-- The target nodes of its jobs, in the order of the jobs. -/
def nodes (r : Request N M F) : List N := r.downloadNodes ++ r.targets

/-- What is checked of the request alone. -/
def valid (r : Request N M F) : Bool :=
  (match r with
    | .transfer .. => !r.targets.isEmpty
    | .download _ rev _ _ _ _ _ files _ =>
      isCommitSha rev && files != some [] && r.targets.all fun t => t ∉ r.downloadNodes) &&
  r.source ∉ r.targets

/-- The caller of a workflow's transfer has resolved its revision (`manager.py:4217`). -/
def pinned : Request N M F → Bool
  | .transfer _ _ _ rev _ wf => !wf || rev.all isCommitSha
  | .download .. => true

/-- The nodes that are looked at together: a transfer looks at one at a time, a download at all. -/
def next : Request N M F → List N → List N
  | .transfer .., ns => ns.take 1
  | .download .., ns => ns

/-- One job of the request. -/
def job (r : Request N M F) (primary : Option I) (i : I) (t : N) : Job I N M F :=
  match r with
  | .transfer m s _ rev req wf =>
    ⟨i, .transfer, m, some s, t, rev, rev.map fun v => req.getD v, none, none, wf⟩
  | .download m rev req n _ _ s files wf =>
    if t ∈ r.downloadNodes then
      -- the selected files are for the primary node
      ⟨i, .download, m, none, t, some rev, some (req.getD rev),
        if t = n then files.map List.eraseDups else none, none, wf⟩
    else
      ⟨i, .transfer, m, some (s.getD n), t, some rev, some (req.getD rev), none,
        if s.isSome then none else primary, wf⟩

def jobs (r : Request N M F) (ids : List I) : List (Job I N M F) :=
  ids.zipWith (r.job ids.head?) r.nodes

end Request

/-- A request under `_queue_lock`, and the nodes for which no active job was looked for yet. -/
structure Queueing (N M F : Type*) where
  request : Request N M F
  unchecked : List N

/-! ## Runners -/

inductive Stage where
  /-- The task has not run yet. -/
  | created
  /-- In the `try`. -/
  | body
  /-- In `except TransferCanceled`, for the target to confirm the rollback. -/
  | rollback
  /-- In the `finally` of `_run_transfer`. -/
  | closing
  | done
  deriving DecidableEq

namespace Stage

/-- The job is being worked at. -/
def works : Stage → Bool
  | .body | .rollback => true
  | _ => false

end Stage

structure Runner (I N M F : Type*) where
  job : Job I N M F
  stage : Stage
  /-- `task.cancel()` was called. -/
  cancelling : Bool
  /-- The job's cancel event is set. -/
  event : Bool
  /-- In `_await_download_with_cancel`, with the writer at work. -/
  dispatched : Bool
  /-- `pending_error` -/
  pending : Bool

/-- An entry of `_active` with that of `_active_endpoints`. -/
structure Slot (N : Type*) where
  target : N
  runner : ℕ
  endpoints : List N

structure State (I N M F : Type*) where
  enabled : Bool
  jobs : List (Job I N M F)
  status : I → Status
  /-- `job["download_cancelable"]` -/
  cancelable : I → Bool
  /-- All tasks so far, in order. -/
  runners : List (Runner I N M F)
  active : List (Slot N)
  /-- `_cancel_events`: the runner whose event it is. -/
  events : I → Option ℕ
  /-- The dispatcher is not done. -/
  dispatching : Bool
  /-- `_update_reserved` -/
  reserved : Bool
  queueing : Option (Queueing N M F)
  /-- The calls of `stop` that wait for the runners they have cancelled. -/
  stops : List (List ℕ)
  /-- The jobs whose download is canceled at the node that writes it. -/
  tombstones : List I

/-- What a runner does next. -/
inductive Act where
  | begin
  /-- The task is cancelled before its first step. -/
  | abandon
  /-- `download_cancelable` after the target's capabilities. -/
  | capable (b : Bool)
  | dispatch
  /-- The writer's request fails: `pending_error`. -/
  | lose
  /-- `cancel_writer` is confirmed. -/
  | stopWriter
  /-- `cancel_writer` fails. -/
  | unconfirmed
  /-- The writer's result is there. -/
  | returned
  | rollback
  | complete
  | fail
  /-- `TransferCanceled` -/
  | cancel
  /-- `CancelledError` -/
  | interrupt
  /-- The end of the `finally`. -/
  | finish
  /-- `CancelledError` in the `finally`. -/
  | drop

inductive Label (I N M F : Type*) where
  | setting (enabled : Bool)
  | queue (r : Request N M F)
  /-- The next look for active jobs of the same model and target. -/
  | check
  /-- The request fails, or its task is cancelled. -/
  | giveUp
  | commit (ids : List I)
  | cancel (i : I)
  | start
  | pass
  | run (k : ℕ) (a : Act)
  | reserve
  | endUpdate
  | stopDispatcher
  /-- `stop` cancels the active tasks. -/
  | stopRunners
  /-- A `stop` is through with its tasks. -/
  | clear (k : ℕ)

/-- What `cancel_transfer` raises. -/
inductive CancelError where
  | lookup
  | runtime

def CancelError.message : CancelError → String
  | .lookup => "transfer not found"
  | .runtime => "a running Hugging Face download cannot be canceled safely; " ++
      "it is resumable and will finish or fail"

/-! ## Cascades and the choice of the next job -/

section Choice

variable {I N M F : Type*} [DecidableEq I] [DecidableEq N]

/-- `_cancel_download_dependents`; a call is never deeper than there are queued jobs
(`cascade_closed`). -/
def cascade (jobs : List (Job I N M F)) : ℕ → I → (I → Status) → I → Status
  | 0, _, st => st
  | n + 1, i, st =>
    jobs.foldl (fun st d =>
      if d.dependsOn = some i ∧ st d.id = .queued then
        cascade jobs n d.id (update st d.id .canceled)
      else st) st

/-- What a queued job's dependency says. -/
inductive Need where
  | met
  | pending
  | dead

def need (jobs : List (Job I N M F)) (st : I → Status) (c : Job I N M F) : Need :=
  match c.dependsOn with
  | none => .met
  | some d =>
    match jobs.find? fun p => p.id = d with
    | none => .dead
    | some p =>
      match st p.id with
      | .failed | .canceled => .dead
      | .completed => .met
      | _ => .pending

/-- `_next_queue_job`, from the candidates that are left. -/
def nextQueueJob (jobs : List (Job I N M F)) (busy : List N) :
    List (Job I N M F) → (I → Status) → (I → Status) × Option (Job I N M F)
  | [], st => (st, none)
  | c :: rest, st =>
    if st c.id = .queued then
      match need jobs st c with
      | .dead => nextQueueJob jobs busy rest (update st c.id .failed)
      | .pending => nextQueueJob jobs busy rest st
      | .met =>
        if c.endpoints.any (· ∈ busy) then nextQueueJob jobs busy rest st else (st, some c)
    else nextQueueJob jobs busy rest st

end Choice

namespace State

variable {I N M F : Type*}

/-- The queue of a controller that has loaded these jobs. -/
def init (enabled : Bool) (jobs : List (Job I N M F)) (status : I → Status)
    (tombstones : List I) : State I N M F :=
  ⟨enabled, jobs, status, fun _ => false, [], [], fun _ => none, false, false, none, [], tombstones⟩

variable (q : State I N M F)

/-- The runner is not done. -/
def Live (k : ℕ) (r : Runner I N M F) : Prop := q.runners[k]? = some r ∧ r.stage ≠ .done

/-- `_busy_nodes` -/
def busy : List N := q.active.flatMap Slot.endpoints

def setRunner (k : ℕ) (r : Runner I N M F) : State I N M F :=
  { q with runners := q.runners.set k r }

def start : State I N M F := { q with dispatching := q.enabled || q.dispatching }

/-- The tasks that are done leave the tables. -/
def sweep : State I N M F :=
  { q with active := q.active.filter fun e =>
      (q.runners[e.runner]?).any fun r => r.stage ≠ .done }

variable [DecidableEq I]

def setStatus (i : I) (s : Status) : State I N M F :=
  { q with status := update q.status i s }

/-- `_cancel_download_dependents` -/
def cancelDependents (i : I) : State I N M F :=
  { q with status := cascade q.jobs q.jobs.length i q.status }

/-- `self._cancel_events.pop(job["id"], None)` -/
def popEvent (i : I) : State I N M F := { q with events := update q.events i none }

/-- The job's cancel event, if there is one, is set. -/
def signal (i : I) : State I N M F :=
  match q.events i with
  | none => q
  | some k =>
    match q.runners[k]? with
    | none => q
    | some r => q.setRunner k { r with event := true }

/-- `cancel_transfer` -/
def cancelTransfer (i : I) : Except CancelError (State I N M F) :=
  match q.jobs.find? fun j => j.id = i with
  | none => .error .lookup
  | some j =>
    if (q.status i).final then .ok q
    else if j.kind = .download ∧ q.status i = .running ∧ q.cancelable i = false then
      .error .runtime
    else if q.status i = .running then .ok (q.signal i)
    else .ok (((q.setStatus i .canceled).cancelDependents i).signal i)

/-! ## The dispatcher -/

variable [DecidableEq N]

/-- The runner task is created and filed under its target. -/
def launch (j : Job I N M F) : State I N M F :=
  { q with
    runners := q.runners ++ [⟨j, .created, false, false, false, false⟩]
    active := q.active.filter (fun e => e.target ≠ j.target) ++
      [⟨j.target, q.runners.length, j.endpoints⟩] }

/-- The `while` of a pass; it ends for want of a job (`fill_idle`). -/
def fill : ℕ → State I N M F → State I N M F
  | 0, q => q
  | n + 1, q =>
    match nextQueueJob q.jobs q.busy q.jobs q.status with
    | (st, none) => { q with status := st }
    | (st, some j) => fill n ({ q with status := st }.launch j)

def pass : State I N M F :=
  if q.reserved then q.sweep else q.sweep.fill (q.jobs.length + 1)

/-! ## Runners and requests -/

/-- The `finally` of a runner: that of `_run_download` has no await. A cancellation of the task has been
raised before. -/
def leave (k : ℕ) (r : Runner I N M F) : State I N M F :=
  match r.job.kind with
  | .download => (q.setRunner k { r with stage := .done, cancelling := false }).popEvent r.job.id
  | .transfer => q.setRunner k { r with stage := .closing, cancelling := false }

def act (k : ℕ) (r : Runner I N M F) : Act → Option (State I N M F)
  | .begin =>
    if r.stage = .created ∧ r.cancelling = false then
      let q := (q.setStatus r.job.id .running).setRunner k { r with stage := .body }
      let q := { q with events := update q.events r.job.id (some k) }
      some (match r.job.kind with
        | .download =>
          { q with cancelable := update q.cancelable r.job.id (!r.job.selective) }
        | .transfer => q)
    else none
  | .abandon =>
    if r.stage = .created ∧ r.cancelling then some (q.setRunner k { r with stage := .done })
    else none
  | .capable b =>
    if r.stage = .body ∧ r.job.kind = .download ∧ r.job.selective = false then
      some { q with cancelable := update q.cancelable r.job.id b }
    else none
  | .dispatch =>
    if r.stage = .body ∧ r.job.kind = .download ∧ r.dispatched = false ∧
        r.cancelling = false ∧ q.cancelable r.job.id then
      some (q.setRunner k { r with dispatched := true })
    else none
  | .lose =>
    if r.stage = .body ∧ r.dispatched then
      some (q.setRunner k { r with pending := true, event := true })
    else none
  | .stopWriter =>
    if r.stage = .body ∧ r.dispatched ∧ (r.event ∨ r.cancelling) then
      some { q with tombstones := r.job.id :: q.tombstones }
    else none
  | .unconfirmed =>
    if r.stage = .body ∧ r.dispatched ∧ (r.event ∨ r.cancelling) then
      some (q.setRunner k { r with event := false })
    else none
  | .returned =>
    if r.stage = .body ∧ r.dispatched ∧ r.pending = false then
      some (q.setRunner k { r with dispatched := false })
    else none
  | .rollback =>
    if r.stage = .body ∧ r.job.kind = .transfer ∧ r.event then
      some (q.setRunner k { r with stage := .rollback })
    else none
  | .complete =>
    if r.stage = .body ∧ r.pending = false then
      some ((q.setStatus r.job.id .completed).leave k r)
    else none
  | .fail =>
    if r.stage.works then some ((q.setStatus r.job.id .failed).leave k r) else none
  | .cancel =>
    if r.stage.works ∧ r.pending = false ∧
        (r.event ∨ r.job.id ∈ q.tombstones ∨ q.status r.job.id = .canceled) then
      let q := q.setStatus r.job.id .canceled
      some (match r.job.kind with
        | .download => (q.cancelDependents r.job.id).leave k r
        | .transfer => q.leave k r)
    else none
  | .interrupt =>
    if r.stage.works ∧ r.cancelling ∧ (r.dispatched → r.job.id ∈ q.tombstones) then
      some ((if r.stage = .body ∧ q.status r.job.id ≠ .canceled then
        q.setStatus r.job.id .queued else q).leave k r)
    else none
  | .finish =>
    if r.stage = .closing then
      some ((q.setRunner k { r with stage := .done }).popEvent r.job.id)
    else none
  | .drop =>
    if r.stage = .closing ∧ r.cancelling then some (q.setRunner k { r with stage := .done })
    else none

/-- The ids are new: `uuid4`. -/
def Fresh (ids : List I) : Prop :=
  ids.Nodup ∧ ∀ i ∈ ids, ∀ j ∈ q.jobs, j.id ≠ i ∧ j.dependsOn ≠ some i

instance (ids : List I) : Decidable (q.Fresh ids) := by
  unfold Fresh
  infer_instance

variable [DecidableEq M]

/-- An active job of the model writes to the node. -/
def taken (m : M) (n : N) : Bool :=
  q.jobs.any fun j => j.model = m ∧ j.target = n ∧ (q.status j.id).active

variable [DecidableEq F]

def step (q : State I N M F) : Label I N M F → Option (State I N M F)
  | .setting b => some { q with enabled := b }
  | .queue r =>
    if q.queueing = none ∧ q.enabled ∧ r.valid ∧ r.pinned then
      some { q with queueing := some ⟨r, r.nodes⟩ }
    else none
  | .check =>
    match q.queueing with
    | some ⟨r, ns⟩ =>
      if (r.next ns).any (q.taken r.model) then some { q with queueing := none }
      else some { q with queueing := some ⟨r, ns.drop (r.next ns).length⟩ }
    | none => none
  | .giveUp => some { q with queueing := none }
  | .commit ids =>
    match q.queueing with
    | some ⟨r, []⟩ =>
      if ids.length = r.nodes.length ∧ q.Fresh ids then
        some { q with
          jobs := q.jobs ++ r.jobs ids
          status := fun i => if i ∈ ids then .queued else q.status i
          cancelable := fun i => if i ∈ ids then false else q.cancelable i
          queueing := none }.start
      else none
    | _ => none
  | .cancel i =>
    match q.cancelTransfer i with
    | .ok q => some q
    | .error _ => some q
  | .start => some q.start
  | .pass => if q.dispatching then some q.pass else none
  | .run k a =>
    match q.runners[k]? with
    | some r => q.act k r a
    | none => none
  | .reserve => some { q with reserved := true }
  | .endUpdate => some { q with reserved := false }
  | .stopDispatcher => some { q with dispatching := false }
  | .stopRunners =>
    let mine := q.active.map Slot.runner
    some { q with
      runners := q.runners.mapIdx fun k r => if k ∈ mine then { r with cancelling := true } else r
      stops := q.stops ++ [mine] }
  | .clear k =>
    match q.stops[k]? with
    | some mine =>
      if mine.all fun k => (q.runners[k]?).all fun r => r.stage = .done then
        some { q with active := [], stops := q.stops.eraseIdx k }
      else none
    | none => none

end State

end SparkDeck.Vnas.Queue
