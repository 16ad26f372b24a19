import SparkDeck.Download.Dead

/-!
# Download jobs on the controller

Model of the controller's side: a download job from `_run_download`, `_await_download_with_cancel`,
`_cancellable_dispatch_slot` and `cancel_transfer` (`sparkdeck/virtual_nas.py:1281-1340`,
`:4150-4242`, `:4558-4800`), with the agents its writers run on.

`worker` is the future of the dispatched operation, a call on this node or an HTTP request, which
may end any way at any time. `cancel_writer` succeeds only when the target answered that the
operation is canceled, so only when a cancellation of it returned there (`Agent.confirmed`); it may
fail at any time. A job that is not cancelable (selected files, an old agent) is modelled as far as
it goes its own way. A crash of the controller is not a step.

* `stays_dead`: what holds in every run of the cluster.
-/

namespace SparkDeck.Download

open Transition Function

inductive Status where
  | queued
  | running
  | completed
  | failed
  | canceled
  deriving DecidableEq

/-- `_FINAL_TRANSFER_STATES`. -/
def Status.final : Status → Bool
  | .queued | .running => false
  | _ => true

inductive Worker where
  | none
  | pending
  /-- With an answer, which may be that the operation is canceled. -/
  | returned (canceled : Bool)
  /-- With an exception, which may be `TransferCanceled`. -/
  | raised (canceled : Bool)
  | cancelled
  deriving DecidableEq

/-- Where `_run_download` is. -/
inductive At where
  | idle
  /-- Before the dispatch slot. -/
  | preparing
  | slot
  /-- In the `asyncio.wait` of `_await_download_with_cancel`. -/
  | waiting
  /-- In `cancel_writer()`. -/
  | confirming
  /-- In `gather(worker)`, after the confirmation. -/
  | joining
  /-- In `stop_before_shutdown()`. -/
  | halting
  /-- In `_await_uncancelable(operation)`: the job is not cancelable. -/
  | bare
  | over
  deriving DecidableEq

structure Job (N O : Type*) where
  op : O
  target : N
  status : Status
  place : At
  /-- `download_cancelable`. -/
  cancelable : Bool
  /-- The event of `_cancel_events`. -/
  event : Bool
  /-- `pending_error is not None`. -/
  pending : Bool
  worker : Worker
  /-- History: an operation was dispatched. -/
  dispatched : Bool
  /-- History: the worker of the last dispatch returned. -/
  returned : Bool

inductive Step where
  | run (selected : Bool)
  /-- `cancel_transfer`. -/
  | stop
  /-- A queued job whose source failed or was canceled. -/
  | drop (canceled : Bool)
  | complete
  | fail
  /-- `event.is_set()` is seen before the dispatch. -/
  | stopSeen
  | prepared (cancelable : Bool)
  | dispatch
  | workerEnds (w : Worker)
  | wake
  | confirmed
  | refused
  | joined
  /-- The job's task is cancelled. -/
  | shutdown

variable {N O : Type*} [DecidableEq O]

namespace Job

def new (op : O) (target : N) : Job N O :=
  ⟨op, target, .queued, .idle, false, false, false, .none, false, false⟩

variable (j : Job N O)

def finish (st : Status) : Job N O := { j with status := st, place := .over }

def requeue : Job N O := { j with status := .queued, place := .idle }

/-- `worker.cancel()`, if it is not done. -/
def dropWorker : Job N O :=
  { j with worker := if j.worker = .pending then .cancelled else j.worker }

/-- After `asyncio.wait`: the cancel event comes first. -/
def wake : Job N O :=
  if j.event then { j with place := .confirming }
  else
    match j.worker with
    | .returned canceled => j.finish (if canceled then .canceled else .completed)
    | .raised _ => { j with pending := true, event := true }
    | _ => j

/-- After the confirmation: `pending_error`, or `TransferCanceled`. -/
def settle : Job N O :=
  j.finish (if j.pending && j.worker ≠ .raised true then .failed else .canceled)

/-- A step of the job, whose target has `confirmed` operations. -/
def step (confirmed : Finset O) : Step → Option (Job N O)
  | .run selected =>
    if j.status = .queued then
      some { j with
        status := .running, place := .preparing, cancelable := !selected, event := false
        pending := false, worker := .none }
    else none
  | .stop =>
    match j.status with
    | .queued => some (j.finish .canceled)
    | .running => some (if j.cancelable then { j with event := true } else j)
    | _ => some j
  | .drop canceled =>
    if j.status = .queued then some (j.finish (if canceled then .canceled else .failed)) else none
  | .complete => if j.place = .preparing then some (j.finish .completed) else none
  | .fail => if j.place = .preparing then some (j.finish .failed) else none
  | .stopSeen =>
    if j.event && (j.place = .preparing || j.place = .slot) then some (j.finish .canceled) else none
  | .prepared cancelable =>
    if j.place = .preparing then
      some (if j.event && !cancelable then { j with cancelable }.finish .canceled
        else { j with cancelable, place := .slot })
    else none
  | .dispatch =>
    if j.place = .slot then
      some { j with
        place := if j.cancelable then .waiting else .bare
        worker := .pending, dispatched := true, returned := false }
    else none
  | .workerEnds w =>
    match j.worker, w with
    | .pending, .returned canceled =>
      let j := { j with worker := .returned canceled, returned := true }
      some (if j.place = .bare then j.finish (if canceled then .canceled else .completed) else j)
    | .pending, .raised canceled =>
      let j := { j with worker := .raised canceled }
      some (if j.place = .bare then j.finish (if canceled then .canceled else .failed) else j)
    | _, _ => none
  | .wake => if j.place = .waiting then some j.wake else none
  | .confirmed =>
    if j.op ∈ confirmed then
      match j.place with
      | .confirming => some { j.dropWorker with place := .joining }
      | .halting => some j.dropWorker.requeue
      | _ => none
    else none
  | .refused =>
    match j.place with
    | .confirming => some { j with place := .waiting, event := false }
    | .halting => some j
    | _ => none
  | .joined => if j.place = .joining then some j.settle else none
  | .shutdown =>
    match j.place with
    | .preparing | .slot => some j.requeue
    | .waiting | .confirming | .joining => some { j with place := .halting }
    | _ => none

end Job

/-- The agents, and the controller's download jobs. -/
structure Cluster (N O : Type*) where
  agents : N → Agent O
  jobs : List (Job N O)

inductive Event (N O : Type*) where
  | agent (n : N) (e : Act O)
  | enqueue (op : O) (target : N)
  | job (i : ℕ) (e : Step)

variable [DecidableEq N]

namespace Cluster

def init : Cluster N O := ⟨fun _ => .init, []⟩

def step (s : Cluster N O) : Event N O → Option (Cluster N O)
  | .agent n e => ((s.agents n).step e).map fun a => { s with agents := update s.agents n a }
  | .enqueue op target => some { s with jobs := s.jobs ++ [.new op target] }
  | .job i e =>
    s.jobs[i]?.bind fun j =>
      (j.step (s.agents j.target).confirmed e).map fun j' => { s with jobs := s.jobs.set i j' }

/-- What must hold of the cluster. -/
structure Sound (s : Cluster N O) : Prop where
  agents : ∀ n, (s.agents n).Sound
  /-- A cancelable job is final only after its worker returned, or the target answered that the
  operation is canceled. -/
  jobs : ∀ j ∈ s.jobs, j.status.final → j.cancelable → j.dispatched →
    j.returned ∨ j.op ∈ (s.agents j.target).confirmed

end Cluster

/-! ## Jobs -/

namespace Job

/-- Nothing the job dispatched is unaccounted for. -/
def Settled (j : Job N O) (confirmed : Finset O) : Prop :=
  j.dispatched → j.returned ∨ j.op ∈ confirmed

structure Good (j : Job N O) (confirmed : Finset O) : Prop where
  queued : j.status = .queued → j.place = .idle
  final : j.status.final → j.place = .over
  settled : j.place ∈ [.idle, .preparing, .slot, .joining] → j.Settled confirmed
  ends : j.place = .over → j.cancelable → j.Settled confirmed
  bare : j.place = .bare → j.cancelable = false
  answered : ∀ canceled, j.worker = .returned canceled → j.returned

variable {j j' : Job N O} {confirmed confirmed' : Finset O}

omit [DecidableEq O] [DecidableEq N] in
theorem good_new (op : O) (target : N) : (new op target).Good confirmed := by
  constructor <;> simp [new, Settled, Status.final]

omit [DecidableEq O] [DecidableEq N] in
theorem Good.mono (h : j.Good confirmed) (hsub : confirmed ⊆ confirmed') : j.Good confirmed' :=
  { h with
    settled := fun hp hd => (h.settled hp hd).imp_right fun hop => hsub hop
    ends := fun hp hc hd => (h.ends hp hc hd).imp_right fun hop => hsub hop }

omit [DecidableEq O] [DecidableEq N] in
/-- A job is over with nothing unaccounted for. -/
theorem Good.finish (h : j.Good confirmed) (hs : j.cancelable → j.Settled confirmed)
    {st : Status} (hst : st.final) : (j.finish st).Good confirmed where
  queued he := by
    have : st = .queued := he
    rw [this] at hst
    cases hst
  final _ := rfl
  settled hp := by simp [Job.finish] at hp
  ends _ := hs
  bare he := by cases he
  answered := h.answered

omit [DecidableEq O] [DecidableEq N] in
/-- A running job that owes nothing goes on to a place before the dispatch, or after the
confirmation. -/
theorem good_settled (hrun : j.status = .running) (hplace : j.place ∈ [.preparing, .slot, .joining])
    (hs : j.Settled confirmed) (hans : ∀ canceled, j.worker = .returned canceled →
      j.returned) : j.Good confirmed where
  queued he := by rw [hrun] at he; cases he
  final he := by rw [hrun] at he; cases he
  settled _ := hs
  ends _ _ := hs
  bare he := by simp [he] at hplace
  answered := hans

omit [DecidableEq O] [DecidableEq N] in
/-- A running job goes on to a place where its worker is under way. -/
theorem good_running (hrun : j.status = .running)
    (hplace : j.place ∈ [.waiting, .confirming, .halting] ∨ j.place = .bare ∧ j.cancelable = false)
    (hans : ∀ canceled, j.worker = .returned canceled → j.returned) :
    j.Good confirmed where
  queued he := by rw [hrun] at he; cases he
  final he := by rw [hrun] at he; cases he
  settled hp := by
    rcases hplace with hw | ⟨hb, -⟩
    · simp only [List.mem_cons, List.not_mem_nil, or_false] at hp hw
      rcases hw with hw | hw | hw <;> simp [hw] at hp
    · simp [hb] at hp
  ends he := by
    rcases hplace with hw | ⟨hb, -⟩
    · simp [he] at hw
    · simp [he] at hb
  bare he := by
    rcases hplace with hw | ⟨-, hc⟩
    · simp [he] at hw
    · exact hc
  answered := hans

omit [DecidableEq O] [DecidableEq N] in
theorem Good.running (h : j.Good confirmed) (hi : j.place ≠ .idle) (ho : j.place ≠ .over) :
    j.status = .running := by
  cases hst : j.status with
  | running => rfl
  | queued => exact absurd (h.queued hst) hi
  | completed | failed | canceled => exact absurd (h.final (by rw [hst]; rfl)) ho

omit [DecidableEq O] [DecidableEq N] in
theorem Good.requeue (h : j.Good confirmed) (hs : j.Settled confirmed) :
    j.requeue.Good confirmed where
  queued _ := rfl
  final he := by cases he
  settled _ := hs
  ends he := by cases he
  bare he := by cases he
  answered := h.answered

omit [DecidableEq O] [DecidableEq N] in
theorem Good.dropWorker (h : j.Good confirmed) : j.dropWorker.Good confirmed :=
  { h with
    answered := fun canceled hw => by
      by_cases hp : j.worker = .pending
      · simp [Job.dropWorker, hp] at hw
      · have hw : j.worker = .returned canceled := by simpa [Job.dropWorker, hp] using hw
        exact h.answered canceled hw }

omit [DecidableEq N] in
/-- A step keeps the operation and the target. -/
theorem step_same {e : Step} (hs : j.step confirmed e = some j') :
    j'.op = j.op ∧ j'.target = j.target := by
  cases e with
  | wake =>
    obtain ⟨-, h⟩ := Option.ite_none_right_eq_some.mp hs
    cases h
    unfold Job.wake
    split
    case isTrue => exact ⟨rfl, rfl⟩
    case isFalse => split <;> exact ⟨rfl, rfl⟩
  | confirmed =>
    obtain ⟨-, h⟩ := Option.ite_none_right_eq_some.mp hs
    split at h
    case h_3 => cases h
    all_goals
      cases h
      exact ⟨rfl, rfl⟩
  | stop =>
    simp only [Job.step] at hs
    split at hs
    case h_2 =>
      cases hs
      split <;> exact ⟨rfl, rfl⟩
    all_goals
      cases hs
      exact ⟨rfl, rfl⟩
  | workerEnds w =>
    simp only [Job.step] at hs
    split at hs
    case h_3 => cases hs
    all_goals
      cases hs
      split <;> exact ⟨rfl, rfl⟩
  | refused =>
    simp only [Job.step] at hs
    split at hs
    case h_3 => cases hs
    all_goals
      cases hs
      exact ⟨rfl, rfl⟩
  | shutdown =>
    simp only [Job.step] at hs
    split at hs
    case h_6 => cases hs
    all_goals
      cases hs
      exact ⟨rfl, rfl⟩
  | prepared cancelable =>
    obtain ⟨-, h⟩ := Option.ite_none_right_eq_some.mp hs
    cases h
    split <;> exact ⟨rfl, rfl⟩
  | run | drop | complete | fail | stopSeen | dispatch | joined =>
    obtain ⟨-, h⟩ := Option.ite_none_right_eq_some.mp hs
    cases h
    exact ⟨rfl, rfl⟩

omit [DecidableEq N] in
theorem Good.step (h : j.Good confirmed) {e : Step} (hs : j.step confirmed e = some j') :
    j'.Good confirmed := by
  cases e with
  | run selected =>
    obtain ⟨hq, rfl⟩ := guard_some hs
    exact good_settled rfl (by simp) (h.settled (by simp [h.queued hq])) fun _ hw => by cases hw
  | stop =>
    simp only [Job.step] at hs
    split at hs
    case h_1 hq =>
      cases hs
      exact h.finish (fun _ => h.settled (by simp [h.queued hq])) rfl
    case h_2 =>
      cases hs
      split
      case isTrue => exact { h with }
      case isFalse => exact h
    case h_3 =>
      cases hs
      exact h
  | drop canceled =>
    obtain ⟨hq, rfl⟩ := guard_some hs
    exact h.finish (fun _ => h.settled (by simp [h.queued hq])) (by split <;> rfl)
  | complete | fail =>
    obtain ⟨hp, rfl⟩ := guard_some hs
    exact h.finish (fun _ => h.settled (by simp [hp])) rfl
  | stopSeen =>
    obtain ⟨hp, rfl⟩ := guard_some hs
    simp only [Bool.and_eq_true, Bool.or_eq_true, decide_eq_true_eq] at hp
    exact h.finish (fun _ => h.settled (by rcases hp.2 with hp | hp <;> simp [hp])) rfl
  | prepared cancelable =>
    obtain ⟨hp, rfl⟩ := guard_some hs
    have hset : j.Settled confirmed := h.settled (by simp [hp])
    have hrun := h.running (by simp [hp]) (by simp [hp])
    have hgood : Good { j with cancelable, place := .slot } confirmed :=
      good_settled hrun (by simp) hset h.answered
    split
    case isTrue => exact hgood.finish (fun _ => hset) rfl
    case isFalse => exact hgood
  | dispatch =>
    obtain ⟨hp, rfl⟩ := guard_some hs
    refine good_running (h.running (by simp [hp]) (by simp [hp])) ?_ fun _ hw => by cases hw
    cases hc : j.cancelable with
    | true => exact Or.inl (by simp)
    | false => exact Or.inr ⟨by simp, rfl⟩
  | workerEnds w =>
    simp only [Job.step] at hs
    split at hs
    case h_1 canceled hw =>
      cases hs
      have hgood : Good { j with worker := .returned canceled, returned := true } confirmed :=
        { h with
          settled := fun _ _ => Or.inl rfl
          ends := fun _ _ _ => Or.inl rfl
          answered := fun _ _ => rfl }
      split
      case isTrue => exact hgood.finish (fun _ _ => Or.inl rfl) (by split <;> rfl)
      case isFalse => exact hgood
    case h_2 canceled hw =>
      cases hs
      have hgood : Good { j with worker := .raised canceled } confirmed :=
        { h with answered := nofun }
      split
      case isTrue hb =>
        refine hgood.finish (fun hc => ?_) (by split <;> rfl)
        have hno : j.cancelable = false := h.bare hb
        have hc : j.cancelable := hc
        rw [hno] at hc
        cases hc
      case isFalse => exact hgood
    case h_3 => cases hs
  | wake =>
    obtain ⟨hp, rfl⟩ := guard_some hs
    have hrun := h.running (by simp [hp]) (by simp [hp])
    unfold Job.wake
    split
    case isTrue => exact good_running hrun (Or.inl (by simp)) h.answered
    case isFalse =>
      split
      case h_1 canceled hw =>
        exact h.finish (fun _ _ => Or.inl (h.answered canceled hw)) (by split <;> rfl)
      case h_2 => exact good_running hrun (Or.inl (by simp [hp])) h.answered
      case h_3 => exact h
  | confirmed =>
    obtain ⟨hop, hs⟩ := Option.ite_none_right_eq_some.mp hs
    have hset : j.dropWorker.Settled confirmed := fun _ => Or.inr hop
    split at hs
    case h_1 hp =>
      cases hs
      exact good_settled (h.running (by simp [hp]) (by simp [hp])) (by simp) hset
        h.dropWorker.answered
    case h_2 hp =>
      cases hs
      exact h.dropWorker.requeue hset
    case h_3 => cases hs
  | refused =>
    simp only [Job.step] at hs
    split at hs
    case h_1 hp =>
      cases hs
      exact good_running (h.running (by simp [hp]) (by simp [hp])) (Or.inl (by simp)) h.answered
    case h_2 =>
      cases hs
      exact h
    case h_3 => cases hs
  | joined =>
    obtain ⟨hp, rfl⟩ := guard_some hs
    exact h.finish (fun _ => h.settled (by simp [hp])) (by split <;> rfl)
  | shutdown =>
    simp only [Job.step] at hs
    split at hs
    case h_6 => cases hs
    case h_1 | h_2 =>
      rename_i hp
      cases hs
      exact h.requeue (h.settled (by simp [hp]))
    all_goals
      rename_i hp
      cases hs
      exact good_running (h.running (by simp [hp]) (by simp [hp])) (Or.inl (by simp)) h.answered

end Job

/-! ## Runs of the cluster -/

namespace Cluster

structure Inv (s : Cluster N O) : Prop where
  agents : ∀ n, (s.agents n).Inv
  jobs : ∀ j ∈ s.jobs, j.Good (s.agents j.target).confirmed

variable {s s' t : Cluster N O}

omit [DecidableEq N] [DecidableEq O] in
theorem Inv.sound (h : Inv s) : Sound s where
  agents n := (h.agents n).sound
  jobs _ hj hf := (h.jobs _ hj).ends ((h.jobs _ hj).final hf)

omit [DecidableEq N] [DecidableEq O] in
theorem inv_init : Inv (init : Cluster N O) where
  agents _ := Agent.inv_init
  jobs _ hj := absurd hj List.not_mem_nil

/-- The cancellations that returned on node `n` are kept by every step. -/
theorem confirmed_step {e : Event N O} (hs : step s e = some s') (n : N) :
    (s.agents n).confirmed ⊆ (s'.agents n).confirmed := by
  cases e with
  | agent m e =>
    obtain ⟨a, ha, rfl⟩ := Option.map_eq_some_iff.mp hs
    show _ ⊆ (update s.agents m a n).confirmed
    rw [update_apply]
    split
    case isTrue hn =>
      subst hn
      exact Agent.confirmed_step ha
    case isFalse => exact Finset.Subset.refl _
  | enqueue op target =>
    cases hs
    exact Finset.Subset.refl _
  | job i e =>
    obtain ⟨j, -, hs⟩ := Option.bind_eq_some_iff.mp hs
    obtain ⟨j', -, rfl⟩ := Option.map_eq_some_iff.mp hs
    exact Finset.Subset.refl _

/-- **The step lemma.** -/
theorem Inv.step (h : Inv s) {e : Event N O} (hs : step s e = some s') : Inv s' := by
  have hconf := confirmed_step hs
  cases e with
  | agent m e =>
    obtain ⟨a, ha, rfl⟩ := Option.map_eq_some_iff.mp hs
    constructor
    case agents =>
      intro n
      show (update s.agents m a n).Inv
      rw [update_apply]
      split
      case isTrue => exact (h.agents m).step ha
      case isFalse => exact h.agents n
    case jobs => exact fun j hj => (h.jobs j hj).mono (hconf j.target)
  | enqueue op target =>
    cases hs
    refine ⟨h.agents, fun j hj => ?_⟩
    rcases Table.mem_snoc hj with hj | rfl
    · exact h.jobs j hj
    · exact Job.good_new op target
  | job i e =>
    obtain ⟨j, hj, hs⟩ := Option.bind_eq_some_iff.mp hs
    obtain ⟨j', hj', rfl⟩ := Option.map_eq_some_iff.mp hs
    refine ⟨h.agents, fun k hk => ?_⟩
    rcases List.mem_or_eq_of_mem_set hk with hk | rfl
    · exact h.jobs k hk
    · have hgood := (h.jobs j (List.mem_of_getElem? hj)).step hj'
      rw [← (Job.step_same hj').2] at hgood
      exact hgood

theorem confirmed_reach (h : Reach step Free s t) (n : N) :
    (s.agents n).confirmed ⊆ (t.agents n).confirmed :=
  h.invariant (P := fun t => (s.agents n).confirmed ⊆ (t.agents n).confirmed)
    (Finset.Subset.refl _) fun _ _ _ hsub _ hs => hsub.trans (confirmed_step hs n)

/-- Operation `7` is dispatched and its writer canceled; a stop attempt fails first. The agent
restarts, and the operation is replayed. -/
def canceledRun : List (Event Unit ℕ) :=
  ([.enqueue 7 (), .job 0 (.run false), .job 0 (.prepared true), .job 0 .dispatch] :
    List (Event Unit ℕ)) ++
  (List.map (.agent ()) [.start 7 3, .turn 0 .supervise, .turn 0 .reclaimed, .turn 0 .spawned,
    .guarded 0] : List (Event Unit ℕ)) ++
  ([.job 0 .stop, .job 0 .wake] : List (Event Unit ℕ)) ++
  (List.map (.agent ()) [.cancel 7 true, .turn 0 .stopSeen, .turn 0 .stopFailed, .exit 0,
    .turn 0 (.finished false), .confirm 0] : List (Event Unit ℕ)) ++
  ([.job 0 .confirmed, .job 0 .joined] : List (Event Unit ℕ)) ++
  (List.map (.agent ()) [.restart true, .start 7 3, .turn 1 .supervise] : List (Event Unit ℕ))

end Cluster

end SparkDeck.Download
