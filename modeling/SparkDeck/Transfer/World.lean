import Mathlib.Data.List.Basic
import SparkDeck.Lib.Transition

/-!
# Transfers and their target

Model of a model transfer: `_run_transfer` and `cancel_transfer` on the controller, and
`import_model_from_peer`, `cancel_peer_import`, `_rollback_peer_import_destination` and
`import_model` on the target (`sparkdeck/virtual_nas.py:2618-2832`, `:3015-3041`, `:4150-4182`,
`:4802-5075`).

There is one target, with one place for each model's repository; transfers to other nodes do not
touch it. A transfer is a job, and its number is the transfer id. Each dispatch of a job sends one
`Import` request, which may arrive at any time or be lost, whether the controller still
waits for it or not. A peer import has a record and can be canceled by its transfer id; an import
through the controller (`import_model` with the controller's stream, or a request with it as its
body) can only be cut short by not sending the whole stream. The request that cancels a peer import
may be processed at any time after it was sent, or more than once; its answer may be lost.

Anyone else may remove a repository or place one. A repository is known by its device and inode,
`identity`; the number of an identity is chosen by the file system.

`Clean` is the condition under which `SparkDeck.Transfer.Rollback` proves that a canceled transfer
leaves nothing on the target.
-/

namespace SparkDeck.Transfer

open Function

inductive Status where
  | queued
  | running
  | completed
  | failed
  | canceled
  deriving DecidableEq

/-- Where `_run_transfer` is. -/
inductive Place where
  | idle
  | preparing
  /-- With its import request sent. -/
  | importing
  | verifying
  /-- With its request to cancel the peer import sent. -/
  | asking
  | over
  deriving DecidableEq

structure Job (M : Type*) where
  model : M
  status : Status
  place : Place
  /-- The source's agent sends to the target directly. -/
  peer : Bool
  event : Bool
  /-- The import of this dispatch. -/
  request : Option ℕ
  /-- A cancel request was sent. -/
  asked : Bool
  /-- An answer with `rollback_confirmed` is on its way. -/
  answered : Bool
  /-- History: `cancel_peer_import` answered `rollback_confirmed`. -/
  confirmed : Bool

inductive Stage where
  /-- On its way. -/
  | flying
  | lost
  | receiving
  /-- The repository is registered; a peer import has its cancel event still to see. -/
  | placed
  /-- In `rmtree`, after the check of its rollback. -/
  | removing
  | ended
  deriving DecidableEq

/-- Nothing is done any more. -/
def Stage.isOver : Stage → Bool
  | .lost | .ended => true
  | _ => false

structure Import (M I : Type*) where
  job : ℕ
  model : M
  peer : Bool
  /-- The controller sent its whole stream. -/
  complete : Bool
  stage : Stage
  cancel : Bool
  /-- `destination_identity`. -/
  identity : Option I

/-- The request that job `j` sends. -/
def Import.new {M I : Type*} (j : ℕ) (job : Job M) : Import M I :=
  ⟨j, job.model, job.peer, false, .flying, false, none⟩

/-- Where a call of `cancel_peer_import` is that found a record. -/
inductive Waiter where
  /-- In `record["done"].wait()`. -/
  | waiting
  | removing
  | over
  deriving DecidableEq

structure Cancel where
  target : ℕ
  waiter : Waiter

structure Repo (I : Type*) where
  identity : I
  /-- The import that placed it. -/
  placer : Option ℕ

structure World (M I : Type*) where
  dest : M → Option (Repo I)
  imports : List (Import M I)
  /-- `_peer_imports`. -/
  records : ℕ → Option ℕ
  cancels : List Cancel
  jobs : List (Job M)
  /-- History: a rollback removed what its import had not placed. -/
  foreign : Bool

variable {M I : Type*} [DecidableEq M] [DecidableEq I]

/-- What `_rollback_peer_import_destination` finds. -/
inductive Verdict where
  /-- There is nothing to remove. -/
  | clear
  | remove
  | refuse

namespace World

def init : World M I := ⟨fun _ => none, [], fun _ => none, [], [], false⟩

variable (w : World M I)

def setImport (i : ℕ) (x : Import M I) : World M I := { w with imports := w.imports.set i x }

def setJob (j : ℕ) (job : Job M) : World M I := { w with jobs := w.jobs.set j job }

def setCancel (k : ℕ) (c : Cancel) : World M I := { w with cancels := w.cancels.set k c }

def verdict (x : Import M I) : Verdict :=
  match x.identity, w.dest x.model with
  | none, _ | _, none => .clear
  | some id, some repo => if repo.identity = id then .remove else .refuse

/-- `shutil.rmtree(destination)`, for import `i`. -/
def rmtree (i : ℕ) (m : M) : World M I :=
  { w with
    dest := update w.dest m none
    foreign := w.foreign || (w.dest m).any (·.placer ≠ some i) }

/-- `cancel_peer_import` answers `rollback_confirmed`. -/
def confirm (j : ℕ) : World M I :=
  match w.jobs[j]? with
  | some job => w.setJob j { job with answered := true, confirmed := true }
  | none => w

/-- The target holds a repository that job `j` placed. -/
def holds (j : ℕ) (m : M) : Bool :=
  (w.dest m).any fun repo => repo.placer.any fun i => w.imports[i]?.any (·.job = j)

/-- The end of a peer import that saw its cancel event. -/
def settle (i : ℕ) (x : Import M I) : World M I :=
  match w.verdict x with
  | .clear => w.setImport i { x with identity := none, stage := .ended }
  | .remove => w.setImport i { x with stage := .removing }
  | .refuse => w.setImport i { x with stage := .ended }

/-- `cancel_peer_import`, once the import is done. -/
def rollback (k : ℕ) (c : Cancel) (x : Import M I) : World M I :=
  match w.verdict x with
  | .clear =>
    ((w.setImport c.target { x with identity := none }).setCancel k { c with waiter := .over })
      |>.confirm x.job
  | .remove => w.setCancel k { c with waiter := .removing }
  | .refuse => w.setCancel k { c with waiter := .over }

end World

/-- What a job does. -/
inductive Step where
  | run (peer : Bool)
  | dispatch
  /-- The controller's last chunk is sent; the event was not set. -/
  | sent
  | imported
  | verified
  /-- The event is seen. -/
  | stopSeen
  | confirmed
  /-- The rollback is not confirmed. -/
  | refused
  | fail
  /-- Its task is cancelled. -/
  | shutdown
  /-- `cancel_transfer`. -/
  | stop
  /-- A queued job whose source failed. -/
  | drop

inductive Event (M I : Type*) where
  | enqueue (m : M)
  | job (j : ℕ) (s : Step)
  | arrive (i : ℕ)
  | lose (i : ℕ)
  /-- The import fails or is cut short. -/
  | abort (i : ℕ)
  /-- `os.replace` and `registered`. -/
  | store (i : ℕ) (id : I)
  /-- `import_model` returned. -/
  | returned (i : ℕ)
  /-- The request is cancelled, or fails, after the registration. -/
  | leave (i : ℕ)
  /-- The `rmtree` of an import ends. -/
  | removed (i : ℕ) (ok : Bool)
  /-- The request to cancel the peer import is processed. -/
  | cancel (j : ℕ)
  /-- `cancel_peer_import` finds the import done. -/
  | rollback (k : ℕ)
  /-- The `rmtree` of a cancellation ends. -/
  | rolledBack (k : ℕ) (ok : Bool)
  /-- `_forget_peer_import`. -/
  | forget (j : ℕ)
  | place (m : M) (id : I)
  | remove (m : M)

namespace World

variable (w : World M I)

/-- The request of the job has sent its whole stream. -/
def complete (job : Job M) : Bool :=
  job.request.any fun i => w.imports[i]?.any (·.complete)

/-- A new import request. -/
def send (x : Import M I) : World M I := { w with imports := w.imports ++ [x] }

/-- A step of job `j`. -/
def jobStep (j : ℕ) (job : Job M) : Step → Option (World M I)
  | .run peer =>
    if job.status = .queued then
      some (w.setJob j { job with
        status := .running, place := .preparing, peer, event := false, request := none
        answered := false })
    else none
  | .dispatch =>
    if job.place = .preparing then
      some ((w.send (.new j job)).setJob j
        { job with place := .importing, request := some w.imports.length })
    else none
  | .sent =>
    if job.place = .importing && !job.peer && !job.event then
      job.request.bind fun i =>
        w.imports[i]?.map fun x => w.setImport i { x with complete := true }
    else none
  | .imported =>
    if job.place = .importing && (job.peer || w.complete job) then
      some (w.setJob j { job with place := .verifying })
    else none
  | .verified =>
    if job.place = .verifying && !job.event then
      some (w.setJob j { job with status := .completed, place := .over })
    else none
  | .stopSeen =>
    if !job.event then none
    else if job.peer then
      if job.place = .importing || job.place = .verifying then
        some (w.setJob j { job with place := .asking, asked := true })
      else none
    else if job.place = .importing && !w.complete job || job.place = .verifying then
      some (w.setJob j { job with status := .canceled, place := .over })
    else none
  | .confirmed =>
    if job.place = .asking && job.answered then
      some (w.setJob j { job with status := .canceled, place := .over })
    else none
  | .refused =>
    if job.place = .asking then some (w.setJob j { job with status := .failed, place := .over })
    else none
  | .fail =>
    if job.place = .preparing || job.place = .importing || job.place = .verifying then
      some (w.setJob j { job with status := .failed, place := .over })
    else none
  | .shutdown =>
    if job.status = .running then
      some (w.setJob j { job with status := .queued, place := .idle })
    else none
  | .stop =>
    match job.status with
    | .queued => some (w.setJob j { job with status := .canceled, place := .over })
    | .running => some (w.setJob j { job with event := true })
    | _ => some w
  | .drop =>
    if job.status = .queued then
      some (w.setJob j { job with status := .failed, place := .over })
    else none

/-- `cancel_peer_import`, up to its first suspension. -/
def cancel (j : ℕ) (job : Job M) : World M I :=
  match w.records j with
  | none => if (w.dest job.model).isSome then w else w.confirm j
  | some i =>
    match w.imports[i]? with
    | some x =>
      { w.setImport i { x with cancel := true } with cancels := w.cancels ++ [⟨i, .waiting⟩] }
    | none => w

/-- `import_model` registers the repository. -/
def store (i : ℕ) (x : Import M I) (id : I) : World M I :=
  { w.setImport i { x with stage := .placed, identity := if x.peer then some id else none } with
    dest := update w.dest x.model (some ⟨id, some i⟩) }

/-- `rmtree` ends; without a repository it fails. -/
def removed (i : ℕ) (x : Import M I) (ok : Bool) : World M I :=
  if ok && (w.dest x.model).isSome then
    (w.rmtree i x.model).setImport i { x with identity := none, stage := .ended }
  else w.setImport i { x with stage := .ended }

def rolledBack (k : ℕ) (c : Cancel) (x : Import M I) (ok : Bool) : World M I :=
  if ok && (w.dest x.model).isSome then
    (((w.rmtree c.target x.model).setImport c.target { x with identity := none }).setCancel k
      { c with waiter := .over }).confirm x.job
  else w.setCancel k { c with waiter := .over }

def step : Event M I → Option (World M I)
  | .enqueue m =>
    some { w with jobs := w.jobs ++ [⟨m, .queued, .idle, false, false, none, false, false, false⟩] }
  | .job j s => w.jobs[j]?.bind fun job => w.jobStep j job s
  | .arrive i =>
    w.imports[i]?.bind fun x =>
      if x.stage = .flying then
        let w' := w.setImport i { x with stage := .receiving }
        some (if x.peer then { w' with records := update w.records x.job (some i) } else w')
      else none
  | .lose i =>
    w.imports[i]?.bind fun x =>
      if x.stage = .flying then some (w.setImport i { x with stage := .lost }) else none
  | .abort i =>
    w.imports[i]?.bind fun x =>
      if x.stage = .receiving then some (w.setImport i { x with stage := .ended }) else none
  | .store i id =>
    w.imports[i]?.bind fun x =>
      if x.stage = .receiving && (w.dest x.model).isNone && (x.peer || x.complete) then
        some (w.store i x id)
      else none
  | .returned i =>
    w.imports[i]?.bind fun x =>
      if x.stage = .placed then
        some (if x.peer && x.cancel then w.settle i x else w.setImport i { x with stage := .ended })
      else none
  | .leave i =>
    w.imports[i]?.bind fun x =>
      if x.stage = .placed then some (w.setImport i { x with stage := .ended }) else none
  | .removed i ok =>
    w.imports[i]?.bind fun x => if x.stage = .removing then some (w.removed i x ok) else none
  | .cancel j => w.jobs[j]?.bind fun job => if job.asked then some (w.cancel j job) else none
  | .rollback k =>
    w.cancels[k]?.bind fun c => w.imports[c.target]?.bind fun x =>
      if c.waiter = .waiting && x.stage = .ended then some (w.rollback k c x) else none
  | .rolledBack k ok =>
    w.cancels[k]?.bind fun c => w.imports[c.target]?.bind fun x =>
      if c.waiter = .removing then some (w.rolledBack k c x ok) else none
  | .forget j =>
    (w.records j).bind fun i => w.imports[i]?.bind fun x =>
      if x.stage = .ended then some { w with records := update w.records j none } else none
  | .place m id =>
    if (w.dest m).isNone then
      some { w with dest := update w.dest m (some ⟨id, none⟩) }
    else none
  | .remove m => some { w with dest := update w.dest m none }

/-! ## The condition -/

/-- Someone may still look at the identity of import `i`. -/
def remembered (i : ℕ) (x : Import M I) : Bool :=
  !x.stage.isOver || w.records x.job = some i ||
    w.cancels.any fun c => c.target = i && c.waiter ≠ .over

/-- Every import of job `j` is over, and its repository is not on the target. -/
def Unplaced (j : ℕ) (m : M) : Prop :=
  (∀ x ∈ w.imports, x.job = j → x.stage.isOver = true) ∧ w.holds j m = false

/-- A repository with identity `id` appears where no rollback is about to remove one, and the file
system does not use an identity again that an import remembers. -/
def Apart (m : M) (id : I) : Prop :=
  ∀ i ∈ List.range w.imports.length, ∀ x ∈ w.imports[i]?, x.model = m →
    x.stage ≠ .removing ∧ (w.remembered i x → x.identity ≠ some id) ∧
      ∀ c ∈ w.cancels, c.target = i → c.waiter ≠ .removing

instance (j : ℕ) (m : M) : Decidable (w.Unplaced j m) := inferInstanceAs (Decidable (_ ∧ _))

instance (m : M) (id : I) : Decidable (w.Apart m id) :=
  inferInstanceAs (Decidable (∀ i ∈ List.range w.imports.length, ∀ x ∈ w.imports[i]?, _ → _))

/-- No cancellation of the peer import of job `j` is under way, and none was confirmed. -/
def Uncanceled (j : ℕ) : Prop :=
  (∀ job ∈ w.jobs[j]?, job.confirmed = false) ∧
    ∀ c ∈ w.cancels, c.waiter ≠ .over → ∀ x ∈ w.imports[c.target]?, x.job ≠ j

instance (j : ℕ) : Decidable (w.Uncanceled j) :=
  inferInstanceAs (Decidable (_ ∧ ∀ c ∈ w.cancels, _ → _))

/-- What a step of a job must not do. A job is dispatched again only when nothing of its earlier
dispatches, nor a cancellation of them, is under way or was confirmed, and nothing is on the target.
A queued job is canceled only when nothing is under way or on the target; a running one whose stream
goes through the controller, only before the whole stream is sent. -/
def CleanStep (j : ℕ) (job : Job M) : Step → Prop
  | .dispatch => w.Uncanceled j ∧ w.Unplaced j job.model
  | .stop =>
    (job.status = .queued → w.Unplaced j job.model) ∧
      (job.status = .running → job.peer = false → w.complete job = false)
  | _ => True

instance (j : ℕ) (job : Job M) : (s : Step) → Decidable (w.CleanStep j job s)
  | .dispatch => inferInstanceAs (Decidable (_ ∧ _))
  | .stop => inferInstanceAs (Decidable (_ ∧ _))
  | .run _ | .sent | .imported | .verified | .stopSeen | .confirmed | .refused | .fail | .shutdown
  | .drop => isTrue trivial

/-- A peer import does not arrive after its cancellation was processed. -/
def Clean : Event M I → Prop
  | .job j s => ∀ job ∈ w.jobs[j]?, w.CleanStep j job s
  | .arrive i => ∀ x ∈ w.imports[i]?, x.peer → w.Uncanceled x.job
  | .store i id => ∀ x ∈ w.imports[i]?, w.Apart x.model id
  | .place m id => w.Apart m id
  | _ => True

instance : (e : Event M I) → Decidable (w.Clean e)
  | .job j s => inferInstanceAs (Decidable (∀ job ∈ w.jobs[j]?, w.CleanStep j job s))
  | .arrive i => inferInstanceAs (Decidable (∀ x ∈ w.imports[i]?, _ → w.Uncanceled x.job))
  | .store i id => inferInstanceAs (Decidable (∀ x ∈ w.imports[i]?, w.Apart x.model id))
  | .place m id => inferInstanceAs (Decidable (w.Apart m id))
  | .enqueue _ | .lose _ | .abort _ | .returned _ | .leave _ | .removed _ _ | .cancel _
  | .rollback _ | .rolledBack _ _ | .forget _ | .remove _ => isTrue trivial

/-! ## What must hold -/

/-- The target holds nothing that a canceled job placed; nothing that a peer import placed whose
cancellation was confirmed; and no rollback removed what its import had not placed. -/
structure Sound : Prop where
  canceled : ∀ (j : ℕ) (job : Job M), w.jobs[j]? = some job → job.status = .canceled →
    ∀ m, w.holds j m = false
  confirmed : ∀ (j : ℕ) (job : Job M), w.jobs[j]? = some job → job.confirmed →
    ∀ (m : M) (repo : Repo I) (i : ℕ) (x : Import M I), w.dest m = some repo →
      repo.placer = some i → w.imports[i]? = some x → x.job = j → x.peer = false
  own : w.foreign = false

end World

end SparkDeck.Transfer
