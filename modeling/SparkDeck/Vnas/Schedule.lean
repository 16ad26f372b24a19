import SparkDeck.Lib.Table
import SparkDeck.Lib.Transition
import SparkDeck.Vnas.Pass
import SparkDeck.Vnas.Requests
import Mathlib.Data.List.Pairwise

/-!
# Scheduling

What the dispatcher keeps up, in every run in which `stop` does not clear the tables while a runner is
left: `Good` is the invariant, with one lemma for each way a step changes the queue.

* `schedule_exclusive`: every state reached is `Scheduled`.
-/

open Transition Function

namespace SparkDeck.Vnas.Queue

variable {I N M F : Type*}

/-- What a queue must be loaded with: the ids are unique, and no job depends on itself or on a later
one. -/
structure Loadable (jobs : List (Job I N M F)) : Prop where
  ids : (jobs.map Job.id).Nodup
  order : jobs.Pairwise fun a b => a.dependsOn ≠ some b.id
  self : ∀ a ∈ jobs, a.dependsOn ≠ some a.id

variable {jobs : List (Job I N M F)}

theorem Loadable.inj (h : Loadable jobs) {a b : Job I N M F} (ha : a ∈ jobs) (hb : b ∈ jobs)
    (hid : a.id = b.id) : a = b :=
  List.inj_on_of_nodup_map h.ids ha hb hid

namespace State

variable {q q' : State I N M F}

structure Good (q : State I N M F) : Prop where
  loadable : Loadable q.jobs
  known : ∀ (k : ℕ) r, q.runners[k]? = some r → r.job ∈ q.jobs
  /-- A runner that is not done is in the tables, -/
  listed : ∀ (k : ℕ) r, q.Live k r → ⟨r.job.target, k, r.job.endpoints⟩ ∈ q.active
  /-- where every entry is some runner's, -/
  entries : ∀ e ∈ q.active, ∃ r, q.runners[e.runner]? = some r ∧ e.target = r.job.target ∧
    e.endpoints = r.job.endpoints
  /-- and no two share a node. -/
  apart : q.active.Pairwise fun e f => ∀ n ∈ e.endpoints, n ∉ f.endpoints
  met : ∀ (k : ℕ) r, q.runners[k]? = some r → Met q.jobs q.status r.job
  created : ∀ (k : ℕ) r, q.runners[k]? = some r → r.stage = .created →
    q.status r.job.id = .queued ∨ q.status r.job.id = .canceled
  works : ∀ (k : ℕ) r, q.runners[k]? = some r → r.stage.works → q.status r.job.id = .running

theorem good_init {enabled : Bool} {status : I → Status} {tombstones : List I} (h : Loadable jobs) :
    (init enabled jobs status tombstones).Good where
  loadable := h
  known k r hr := by simp [init] at hr
  listed k r hr := by simp [init, Live] at hr
  entries e he := by cases he
  apart := .nil
  met k r hr := by simp [init] at hr
  created k r hr := by simp [init] at hr
  works k r hr := by simp [init] at hr

/-- Runners at work share no node. -/
theorem Good.exclusive (h : q.Good) {k k' : ℕ} {r r' : Runner I N M F} (hr : q.Live k r)
    (hr' : q.Live k' r') (hne : k ≠ k') {n : N} (hn : n ∈ r.job.endpoints) :
    n ∉ r'.job.endpoints := by
  have hsymm : Std.Symm fun e f : Slot N => ∀ n ∈ e.endpoints, n ∉ f.endpoints :=
    ⟨fun e f hef n hn hne => hef n hne hn⟩
  have hslots : (⟨r.job.target, k, r.job.endpoints⟩ : Slot N) ≠
      ⟨r'.job.target, k', r'.job.endpoints⟩ := fun he => hne (Slot.mk.inj he).2.1
  exact h.apart.forall (h.listed k r hr) (h.listed k' r' hr') hslots n hn

/-- A job has one runner at work. -/
theorem Good.alone (h : q.Good) {k k' : ℕ} {r r' : Runner I N M F} (hr : q.Live k r)
    (hr' : q.Live k' r') (hid : r.job.id = r'.job.id) : k = k' := by
  by_contra hne
  have hjob := h.loadable.inj (h.known k r hr.1) (h.known k' r' hr'.1) hid
  have hnot := h.exclusive hr hr' hne r.job.target_mem_endpoints
  rw [hjob] at hnot
  exact hnot r'.job.target_mem_endpoints

variable {r : Runner I N M F} {k : ℕ}

theorem live_of_created (hr : q.runners[k]? = some r) (hs : r.stage = .created) : q.Live k r :=
  ⟨hr, by simp [hs]⟩

theorem live_of_works (hr : q.runners[k]? = some r) (hs : r.stage.works) : q.Live k r := by
  refine ⟨hr, ?_⟩
  rintro hd
  rw [hd] at hs
  cases hs

/-! ## What a step does to the statuses and the runners -/

/-- The runners keep their jobs and stages, and queued jobs may be canceled. -/
theorem Good.leaves (h : q.Good) (hjobs : q'.jobs = q.jobs) (hactive : q'.active = q.active)
    (hruns : ∀ k : ℕ, (q'.runners[k]?).map (fun r => (r.job, r.stage)) =
      (q.runners[k]?).map fun r => (r.job, r.stage))
    (hst : Leaves .canceled q.status q'.status) : q'.Good := by
  have hback : ∀ {k : ℕ} {r'}, q'.runners[k]? = some r' →
      ∃ r, q.runners[k]? = some r ∧ r.job = r'.job ∧ r.stage = r'.stage := by
    intro k r' hr'
    have hk := hruns k
    rw [hr', Option.map_some] at hk
    obtain ⟨r, hr, he⟩ := Option.map_eq_some_iff.mp hk.symm
    exact ⟨r, hr, (Prod.mk.inj he).1, (Prod.mk.inj he).2⟩
  refine ⟨hjobs ▸ h.loadable, fun k r' hr' => ?_, fun k r' hr' => ?_, fun e he => ?_,
    hactive ▸ h.apart, fun k r' hr' => ?_, fun k r' hr' hs => ?_, fun k r' hr' hs => ?_⟩
  · obtain ⟨r, hr, hjob, -⟩ := hback hr'
    rw [hjobs, ← hjob]
    exact h.known k r hr
  · obtain ⟨r, hr, hjob, hstage⟩ := hback hr'.1
    rw [hactive, ← hjob]
    exact h.listed k r ⟨hr, hstage ▸ hr'.2⟩
  · obtain ⟨r, hr, htarget, hends⟩ := h.entries e (hactive ▸ he)
    have hk := hruns e.runner
    rw [hr, Option.map_some] at hk
    obtain ⟨r', hr', he'⟩ := Option.map_eq_some_iff.mp hk
    exact ⟨r', hr', by rw [htarget, (Prod.mk.inj he').1], by rw [hends, (Prod.mk.inj he').1]⟩
  · obtain ⟨r, hr, hjob, -⟩ := hback hr'
    rw [hjobs, ← hjob]
    exact (h.met k r hr).congr fun _ => hst.completed
  · obtain ⟨r, hr, hjob, hstage⟩ := hback hr'
    rw [← hjob]
    rcases hst r.job.id with he | ⟨-, hc⟩
    · exact he ▸ h.created k r hr (hstage.trans hs)
    · exact .inr hc
  · obtain ⟨r, hr, hjob, hstage⟩ := hback hr'
    have hrun := h.works k r hr (hstage ▸ hs)
    rw [← hjob, hst.keep, hrun]
    simp [hrun]

/-- A runner goes on, and only its own job's status changes otherwise. -/
theorem Good.move (h : q.Good) (r' : Runner I N M F) (hr : q.Live k r) (hjob : r'.job = r.job)
    (hjobs : q'.jobs = q.jobs) (hactive : q'.active = q.active)
    (hruns : q'.runners = q.runners.set k r')
    (hst : ∀ x, x ≠ r.job.id → q'.status x = q.status x ∨ q.status x = .queued ∧ q'.status x = .canceled)
    (hcompleted : q.status r.job.id = .completed → q'.status r.job.id = .completed)
    (hcreated : r'.stage = .created → q'.status r.job.id = .queued ∨ q'.status r.job.id = .canceled)
    (hworks : r'.stage.works → q'.status r.job.id = .running) : q'.Good := by
  have hget : ∀ {p : ℕ} {x}, q'.runners[p]? = some x →
      p = k ∧ x = r' ∨ p ≠ k ∧ q.runners[p]? = some x := by
    intro p x hx
    rw [hruns, List.getElem?_set] at hx
    split at hx
    case isTrue hp =>
      split at hx
      case isTrue => exact .inl ⟨hp.symm, (Option.some.inj hx).symm⟩
      case isFalse => cases hx
    case isFalse hp => exact .inr ⟨fun he => hp he.symm, hx⟩
  -- no other runner at work has the job
  have hother : ∀ {p x}, p ≠ k → q.Live p x → x.job.id ≠ r.job.id :=
    fun hp hx hid => hp (h.alone hx hr hid)
  refine ⟨hjobs ▸ h.loadable, fun p x hx => ?_, fun p x hx => ?_, fun e he => ?_,
    hactive ▸ h.apart, fun p x hx => ?_, fun p x hx hs => ?_, fun p x hx hs => ?_⟩
  · rw [hjobs]
    rcases hget hx with ⟨rfl, rfl⟩ | ⟨-, hx⟩
    · exact hjob ▸ h.known p r hr.1
    · exact h.known p x hx
  · rw [hactive]
    rcases hget hx.1 with ⟨rfl, rfl⟩ | ⟨-, hx'⟩
    · exact hjob ▸ h.listed p r hr
    · exact h.listed p x ⟨hx', hx.2⟩
  · obtain ⟨x, hx, htarget, hends⟩ := h.entries e (hactive ▸ he)
    by_cases hp : e.runner = k
    · obtain rfl : x = r := Option.some.inj (hx.symm.trans (hp ▸ hr.1))
      refine ⟨r', ?_, hjob ▸ htarget, hjob ▸ hends⟩
      have hlt : e.runner < q.runners.length := (List.getElem?_eq_some_iff.mp hx).1
      rw [hruns, hp, List.getElem?_set_self (hp ▸ hlt)]
    · exact ⟨x, by rw [hruns, List.getElem?_set_ne (Ne.symm hp), hx], htarget, hends⟩
  · have hmet : Met q.jobs q.status x.job := by
      rcases hget hx with ⟨rfl, rfl⟩ | ⟨-, hx⟩
      · exact hjob ▸ h.met p r hr.1
      · exact h.met p x hx
    rw [hjobs]
    refine hmet.congr fun y hy => ?_
    by_cases hyr : y = r.job.id
    · exact hyr ▸ hcompleted (hyr ▸ hy)
    · rcases hst y hyr with he | ⟨hq, -⟩
      · exact he.trans hy
      · cases hy.symm.trans hq
  · rcases hget hx with ⟨rfl, rfl⟩ | ⟨hp, hx⟩
    · exact hjob ▸ hcreated hs
    · rcases hst _ (hother hp (live_of_created hx hs)) with he | ⟨-, hc⟩
      · exact he ▸ h.created p x hx hs
      · exact .inr hc
  · rcases hget hx with ⟨rfl, rfl⟩ | ⟨hp, hx⟩
    · exact hjob ▸ hworks hs
    · have hrun := h.works p x hx hs
      rcases hst _ (hother hp (live_of_works hx hs)) with he | ⟨hq, -⟩
      · exact he.trans hrun
      · cases hrun.symm.trans hq

/-- Jobs fail whose dependency is dead. -/
theorem Good.fails (h : q.Good) {st : I → Status} (hst : Fails q.jobs q.status st) :
    { q with status := st }.Good := by
  refine ⟨h.loadable, h.known, h.listed, h.entries, h.apart,
    fun k r hr => (h.met k r hr).congr fun _ => hst.leaves.completed, fun k r hr hs => ?_,
    fun k r hr hs => ?_⟩
  · by_cases he : st r.job.id = q.status r.job.id
    · change st r.job.id = _ ∨ st r.job.id = _
      rw [he]
      exact h.created k r hr hs
    · obtain ⟨c, hc, hid, hdead⟩ := hst.dead _ he
      obtain rfl := h.loadable.inj hc (h.known k r hr) hid
      exact absurd hdead ((h.met k r hr).congr fun _ => hst.leaves.completed).not_dead
  · have hrun := h.works k r hr hs
    change st r.job.id = _
    rw [hst.leaves.keep, hrun]
    simp [hrun]

/-! ## The dispatcher -/

theorem Good.sweep (h : q.Good) : q.sweep.Good := by
  refine { h with listed := fun k r hr => ?_, entries := fun e he => ?_, apart := ?_ }
  · refine List.mem_filter.mpr ⟨h.listed k r hr, ?_⟩
    have hk : q.runners[k]? = some r := hr.1
    rw [hk]
    exact decide_eq_true hr.2
  · exact h.entries e (List.mem_filter.mp he).1
  · exact h.apart.filter _

/-- Every entry's runner is at work. -/
def Swept (q : State I N M F) : Prop :=
  ∀ e ∈ q.active, ∃ r, q.Live e.runner r ∧ e.endpoints = r.job.endpoints

theorem Good.swept (h : q.Good) : q.sweep.Swept := by
  intro e he
  obtain ⟨hmem, hlive⟩ := List.mem_filter.mp he
  obtain ⟨r, hr, -, hends⟩ := h.entries e hmem
  rw [hr] at hlive
  exact ⟨r, ⟨hr, of_decide_eq_true hlive⟩, hends⟩

theorem mem_busy {n : N} : n ∈ q.busy ↔ ∃ e ∈ q.active, n ∈ e.endpoints := List.mem_flatMap

variable [DecidableEq N] {j : Job I N M F}

/-- A job of a free target is the first of its target. -/
theorem Good.launch_active (h : q.Good) (hfree : ∀ n ∈ j.endpoints, n ∉ q.busy) :
    (q.launch j).active = q.active ++ [⟨j.target, q.runners.length, j.endpoints⟩] := by
  have hall : q.active.filter (fun e => e.target ≠ j.target) = q.active := by
    refine List.filter_eq_self.mpr fun e he => decide_eq_true fun het => ?_
    obtain ⟨r, -, htarget, hends⟩ := h.entries e he
    refine hfree j.target j.target_mem_endpoints (mem_busy.mpr ⟨e, he, ?_⟩)
    rw [← het, htarget, hends]
    exact r.job.target_mem_endpoints
  rw [launch, hall]

theorem Good.launch (h : q.Good) (hj : j ∈ q.jobs) (hqueued : q.status j.id = .queued)
    (hmet : Met q.jobs q.status j) (hfree : ∀ n ∈ j.endpoints, n ∉ q.busy) : (q.launch j).Good := by
  have hactive := h.launch_active hfree
  have hget : ∀ {k : ℕ} {r}, (q.launch j).runners[k]? = some r →
      q.runners[k]? = some r ∨ k = q.runners.length ∧ r = ⟨j, .created, false, false, false, false⟩ := by
    intro k r hr
    change (q.runners ++ [_])[k]? = some r at hr
    rw [List.getElem?_append] at hr
    split at hr
    case isTrue => exact .inl hr
    case isFalse hk =>
      rw [List.getElem?_singleton] at hr
      split at hr
      case isTrue h0 => exact .inr ⟨by omega, (Option.some.inj hr).symm⟩
      case isFalse => cases hr
  have hput : ∀ {k : ℕ} {r}, q.runners[k]? = some r → (q.launch j).runners[k]? = some r := by
    intro k r hr
    exact (List.getElem?_append_left (List.getElem?_eq_some_iff.mp hr).1).trans hr
  refine ⟨h.loadable, fun k r hr => ?_, fun k r hr => ?_, fun e he => ?_, ?_, fun k r hr => ?_,
    fun k r hr hs => ?_, fun k r hr hs => ?_⟩
  · rcases hget hr with hr | ⟨-, rfl⟩
    · exact h.known k r hr
    · exact hj
  · rw [hactive]
    rcases hget hr.1 with hr' | ⟨rfl, rfl⟩
    · exact List.mem_append_left _ (h.listed k r ⟨hr', hr.2⟩)
    · exact List.mem_append_right _ List.mem_cons_self
  · rw [hactive] at he
    rcases Table.mem_snoc he with he | rfl
    · obtain ⟨r, hr, hrest⟩ := h.entries e he
      exact ⟨r, hput hr, hrest⟩
    · exact ⟨_, List.getElem?_concat_length .., rfl, rfl⟩
  · rw [hactive]
    refine List.pairwise_append.mpr ⟨h.apart, List.pairwise_singleton .., fun e he f hf n hn => ?_⟩
    obtain rfl := List.mem_singleton.mp hf
    exact fun hnj => hfree n hnj (mem_busy.mpr ⟨e, he, hn⟩)
  · rcases hget hr with hr | ⟨-, rfl⟩
    · exact h.met k r hr
    · exact hmet
  · rcases hget hr with hr | ⟨-, rfl⟩
    · exact h.created k r hr hs
    · exact .inl hqueued
  · rcases hget hr with hr | ⟨-, rfl⟩
    · exact h.works k r hr hs
    · cases hs

theorem Good.launch_swept (h : q.Good) (hs : q.Swept) (hfree : ∀ n ∈ j.endpoints, n ∉ q.busy) :
    (q.launch j).Swept := by
  intro e he
  rw [h.launch_active hfree] at he
  rcases Table.mem_snoc he with he | rfl
  · obtain ⟨r, hr, hends⟩ := hs e he
    refine ⟨r, ⟨?_, hr.2⟩, hends⟩
    exact (List.getElem?_append_left (List.getElem?_eq_some_iff.mp hr.1).1).trans hr.1
  · exact ⟨_, ⟨List.getElem?_concat_length .., by simp⟩, rfl⟩

/-- The queued jobs that could be given a runner but for their dependencies. -/
def free (q : State I N M F) : List (Job I N M F) :=
  q.jobs.filter fun j => q.status j.id = .queued ∧ ∀ n ∈ j.endpoints, n ∉ q.busy

theorem Good.free_launch_lt (h : q.Good) (hj : j ∈ q.jobs) (hqueued : q.status j.id = .queued)
    (hfree : ∀ n ∈ j.endpoints, n ∉ q.busy) : (q.launch j).free.length < q.free.length := by
  have hbusy : ∀ n, n ∈ q.busy ∨ n ∈ j.endpoints → n ∈ (q.launch j).busy := by
    intro n hn
    refine mem_busy.mpr ?_
    rw [h.launch_active hfree]
    rcases hn with hn | hn
    · obtain ⟨e, he, hne⟩ := mem_busy.mp hn
      exact ⟨e, List.mem_append_left _ he, hne⟩
    · exact ⟨_, List.mem_append_right _ List.mem_cons_self, hn⟩
  have hsub : (q.launch j).free.Sublist q.free := by
    refine List.monotone_filter_right q.jobs fun i hi => ?_
    obtain ⟨hq, hi⟩ := of_decide_eq_true hi
    exact decide_eq_true ⟨hq, fun n hn hnb => hi n hn (hbusy n (.inl hnb))⟩
  refine Nat.lt_of_le_of_ne hsub.length_le fun he => ?_
  have hmem : j ∈ (q.launch j).free := by
    rw [hsub.eq_of_length he]
    exact List.mem_filter.mpr ⟨hj, decide_eq_true ⟨hqueued, hfree⟩⟩
  obtain ⟨-, hnot⟩ := of_decide_eq_true (List.mem_filter.mp hmem).2
  exact hnot j.target j.target_mem_endpoints (hbusy _ (.inr j.target_mem_endpoints))

theorem free_length_le : q.free.length ≤ q.jobs.length := List.length_filter_le ..

variable [DecidableEq I]

omit [DecidableEq I] in
theorem Fails.free_le {st : I → Status} (hst : Fails q.jobs q.status st) :
    ({ q with status := st } : State I N M F).free.length ≤ q.free.length := by
  refine (List.monotone_filter_right q.jobs fun i hi => ?_).length_le
  obtain ⟨hq, hi⟩ := of_decide_eq_true hi
  exact decide_eq_true ⟨hst.leaves.queued (by decide) hq, hi⟩

theorem fill_good {n : ℕ} (h : q.Good) : (fill n q).Good := by
  induction n generalizing q with
  | zero => exact h
  | succ n ih =>
    obtain ⟨hfails, -, hfound⟩ := nextQueueJob_spec q.busy q.jobs (fun _ => id) q.status
    unfold fill
    split
    case h_1 st heq =>
      rw [heq] at hfails
      exact h.fails hfails
    case h_2 st j heq =>
      rw [heq] at hfails hfound
      obtain ⟨hj, hqueued, hmet, hfree⟩ := hfound j rfl
      exact ih ((h.fails hfails).launch hj hqueued hmet hfree)

theorem fill_fails {n : ℕ} : (fill n q).jobs = q.jobs ∧ Fails q.jobs q.status (fill n q).status := by
  induction n generalizing q with
  | zero => exact ⟨rfl, .refl⟩
  | succ n ih =>
    obtain ⟨hfails, -, -⟩ := nextQueueJob_spec q.busy q.jobs (fun _ => id) q.status
    unfold fill
    split
    case h_1 st heq =>
      rw [heq] at hfails
      exact ⟨rfl, hfails⟩
    case h_2 st j heq =>
      rw [heq] at hfails
      obtain ⟨hjobs, hrest⟩ := ih (q := { q with status := st }.launch j)
      exact ⟨hjobs, hfails.trans hrest⟩

/-- The loop ends when there is no job to run: each that is left waits, for a job or for a node. -/
theorem fill_idle {n : ℕ} (h : q.Good) (hs : q.Swept) (hn : q.free.length < n) (hj : j ∈ q.jobs)
    (hqueued : (fill n q).status j.id = .queued) :
    Waits (fill n q).jobs (fill n q).status j ∨ Met (fill n q).jobs (fill n q).status j ∧
      ∃ k r, (fill n q).Live k r ∧ ∃ n ∈ j.endpoints, n ∈ r.job.endpoints := by
  induction n generalizing q with
  | zero => cases hn
  | succ n ih =>
    obtain ⟨hfails, -, hfound⟩ := nextQueueJob_spec q.busy q.jobs (fun _ => id) q.status
    unfold fill at hqueued ⊢
    split at hqueued
    case h_1 st heq =>
      have hidle := nextQueueJob_none q.busy q.jobs (fun _ => id) h.loadable.order
        h.loadable.self q.status (by rw [heq]) hj
      rw [heq] at hidle
      refine (hidle hqueued).imp_right fun ⟨hmet, x, hx, hxb⟩ => ⟨hmet, ?_⟩
      obtain ⟨e, he, hxe⟩ := mem_busy.mp hxb
      obtain ⟨r, hr, hends⟩ := hs e he
      exact ⟨e.runner, r, hr, x, hx, hends ▸ hxe⟩
    case h_2 st c heq =>
      rw [heq] at hfails hfound
      obtain ⟨hc, hcq, hmet, hfree⟩ := hfound c rfl
      have hgood := h.fails hfails
      have hlt := hgood.free_launch_lt hc hcq hfree
      have hle := Fails.free_le hfails
      have hs' : ({ q with status := st } : State I N M F).Swept := hs
      refine ih (hgood.launch hc hcq hmet hfree) (hgood.launch_swept hs' hfree) ?_ hj hqueued
      exact Nat.lt_of_lt_of_le hlt (Nat.le_trans hle (Nat.le_of_lt_succ hn))

theorem Good.pass (h : q.Good) : q.pass.Good := by
  unfold State.pass
  split
  case isTrue => exact h.sweep
  case isFalse => exact fill_good h.sweep

theorem pass_fails : q.pass.jobs = q.jobs ∧ Fails q.jobs q.status q.pass.status := by
  unfold State.pass
  split
  case isTrue => exact ⟨rfl, .refl⟩
  case isFalse => exact fill_fails

theorem Good.pass_idle (h : q.Good) (hr : q.reserved = false) (hj : j ∈ q.jobs)
    (hqueued : q.pass.status j.id = .queued) :
    Waits q.pass.jobs q.pass.status j ∨ Met q.pass.jobs q.pass.status j ∧
      ∃ k r, q.pass.Live k r ∧ ∃ n ∈ j.endpoints, n ∈ r.job.endpoints := by
  unfold State.pass at hqueued ⊢
  rw [if_neg (by simp [hr])] at hqueued ⊢
  exact fill_idle h.sweep h.swept (Nat.lt_succ_of_le free_length_le) hj hqueued

/-! ## Cancels -/

omit [DecidableEq N] [DecidableEq I] in
theorem signal_frame (i : I) : (q.signal i).jobs = q.jobs ∧ (q.signal i).active = q.active ∧
    (q.signal i).status = q.status ∧
    ∀ k : ℕ, ((q.signal i).runners[k]?).map (fun r => (r.job, r.stage)) =
      (q.runners[k]?).map fun r => (r.job, r.stage) := by
  unfold signal
  split
  case h_1 => exact ⟨rfl, rfl, rfl, fun _ => rfl⟩
  case h_2 p hp =>
    split
    case h_1 => exact ⟨rfl, rfl, rfl, fun _ => rfl⟩
    case h_2 r hr =>
      refine ⟨rfl, rfl, rfl, fun k => ?_⟩
      change ((q.runners.set p { r with event := true })[k]?).map _ = _
      rw [List.getElem?_set]
      split
      case isTrue hpk =>
        subst hpk
        rw [if_pos (List.getElem?_eq_some_iff.mp hr).1, hr]
        rfl
      case isFalse => rfl

omit [DecidableEq N] [DecidableEq I] in
theorem Good.signal (h : q.Good) (i : I) : (q.signal i).Good := by
  obtain ⟨hjobs, hactive, hstatus, hruns⟩ := q.signal_frame i
  exact h.leaves hjobs hactive hruns (hstatus ▸ .refl)

omit [DecidableEq N] in
/-- `cancel_transfer` cancels the job and its dependents, signals its runner, or does nothing. -/
theorem cancelTransfer_cases {i : I} (hc : q.cancelTransfer i = .ok q') :
    q' = q ∨ q.status i = .running ∧ q' = q.signal i ∨
      q.status i = .queued ∧ (∃ j ∈ q.jobs, j.id = i) ∧
        q' = ((q.setStatus i .canceled).cancelDependents i).signal i := by
  unfold cancelTransfer at hc
  split at hc
  case h_1 => cases hc
  case h_2 j hj =>
    obtain ⟨hmem, hid⟩ := find_id hj
    by_cases hfinal : (q.status i).final
    · rw [if_pos hfinal] at hc
      exact .inl (Except.ok.inj hc).symm
    · rw [if_neg hfinal] at hc
      split at hc
      case isTrue => cases hc
      case isFalse =>
        split at hc
        case isTrue hrun => exact .inr (.inl ⟨hrun, (Except.ok.inj hc).symm⟩)
        case isFalse hrun =>
          refine .inr (.inr ⟨?_, ⟨j, hmem, hid⟩, (Except.ok.inj hc).symm⟩)
          cases hs : q.status i <;> simp_all [Status.final]

omit [DecidableEq N] in
theorem cancelDependents_leaves (i : I) :
    Leaves .canceled q.status (q.cancelDependents i).status :=
  cascade_leaves _ _ _ _

omit [DecidableEq N] in
theorem Good.cancelTransfer (h : q.Good) {i : I} (hc : q.cancelTransfer i = .ok q') : q'.Good := by
  rcases cancelTransfer_cases hc with rfl | ⟨-, rfl⟩ | ⟨hq, -, rfl⟩
  · exact h
  · exact h.signal i
  · have hleaves : ((q.setStatus i .canceled).cancelDependents i).Good :=
      h.leaves rfl rfl (fun _ => rfl) ((Leaves.update hq).trans (cancelDependents_leaves i))
    exact hleaves.signal i

/-! ## Runners -/

omit [DecidableEq N] in
theorem Good.leave (h : q.Good) (st : I → Status) (hr : q.Live k r)
    (hst : ∀ x, x ≠ r.job.id → st x = q.status x ∨ q.status x = .queued ∧ st x = .canceled)
    (hcompleted : q.status r.job.id ≠ .completed) : ({ q with status := st }.leave k r).Good := by
  unfold State.leave
  split
  case h_1 =>
    refine h.move { r with stage := .done, cancelling := false } hr rfl rfl rfl rfl hst
      (fun hc => absurd hc hcompleted) ?_ ?_
    · simp
    · simp [Stage.works]
  case h_2 =>
    refine h.move { r with stage := .closing, cancelling := false } hr rfl rfl rfl rfl hst
      (fun hc => absurd hc hcompleted) ?_ ?_
    · simp
    · simp [Stage.works]

omit [DecidableEq N] [DecidableEq I] in
/-- A runner goes on in the same stage. -/
theorem Good.same (h : q.Good) {r r' : Runner I N M F} (hr : q.runners[k]? = some r)
    (hjob : r'.job = r.job) (hstage : r'.stage = r.stage) : (q.setRunner k r').Good := by
  refine h.leaves rfl rfl (fun p => ?_) .refl
  change ((q.runners.set k r')[p]?).map _ = _
  rw [List.getElem?_set]
  split
  case isTrue hkp =>
    subst hkp
    rw [if_pos (List.getElem?_eq_some_iff.mp hr).1, hr, Option.map_some, Option.map_some, hjob,
      hstage]
  case isFalse => rfl

omit [DecidableEq N] in
theorem Good.act (h : q.Good) (hr : q.runners[k]? = some r) {a : Act} (hs : q.act k r a = some q') :
    q'.Good := by
  have hset : ∀ s x, x ≠ r.job.id → update q.status r.job.id s x = q.status x ∨
      q.status x = .queued ∧ update q.status r.job.id s x = .canceled :=
    fun s x hx => .inl (update_of_ne hx ..)
  have hrunning : r.stage.works → q.status r.job.id ≠ .completed := fun hw hc => by
    rw [h.works k r hr hw] at hc
    cases hc
  cases a with
  | begin =>
    obtain ⟨hc, hs⟩ := Option.ite_none_right_eq_some.mp hs
    have hmoved : (q.setStatus r.job.id .running |>.setRunner k { r with stage := .body }).Good := by
      refine h.move { r with stage := .body } (live_of_created hr hc.1) rfl rfl rfl rfl
        (hset _) (fun hcomp => ?_) (by simp) fun _ => update_self ..
      rcases h.created k r hr hc.1 with hq | hq <;> rw [hq] at hcomp <;> cases hcomp
    cases hs
    cases r.job.kind with
    | download | transfer => exact hmoved.leaves rfl rfl (fun _ => rfl) .refl
  | abandon =>
    obtain ⟨hc, rfl⟩ := guard_some hs
    exact h.move { r with stage := .done } (live_of_created hr hc.1) rfl rfl rfl rfl
      (fun _ _ => .inl rfl) id (by simp) (by simp [Stage.works])
  | capable b | stopWriter =>
    obtain ⟨_, rfl⟩ := guard_some hs
    exact h.leaves rfl rfl (fun _ => rfl) .refl
  | dispatch | lose | unconfirmed | returned =>
    obtain ⟨_, rfl⟩ := guard_some hs
    exact h.same hr rfl rfl
  | rollback =>
    obtain ⟨hc, rfl⟩ := guard_some hs
    have hw : r.stage.works := by rw [hc.1]; rfl
    exact h.move { r with stage := .rollback } (live_of_works hr hw) rfl rfl rfl rfl
      (fun _ _ => .inl rfl) id (by simp) fun _ => h.works k r hr hw
  | complete =>
    obtain ⟨hc, rfl⟩ := guard_some hs
    have hw : r.stage.works := by rw [hc.1]; rfl
    exact h.leave _ (live_of_works hr hw) (hset _) (hrunning hw)
  | fail =>
    obtain ⟨hw, rfl⟩ := guard_some hs
    exact h.leave _ (live_of_works hr hw) (hset _) (hrunning hw)
  | cancel =>
    obtain ⟨hc, rfl⟩ := guard_some hs
    have hlive := live_of_works hr hc.1
    split
    case h_1 =>
      refine h.leave ((q.setStatus r.job.id .canceled).cancelDependents r.job.id).status
        hlive (fun x hx => ?_) (hrunning hc.1)
      have hleave := (cancelDependents_leaves (q := q.setStatus r.job.id .canceled) r.job.id) x
      have hx' : (q.setStatus r.job.id .canceled).status x = q.status x :=
        update_of_ne hx ..
      rw [hx'] at hleave
      exact hleave
    case h_2 => exact h.leave _ hlive (hset _) (hrunning hc.1)
  | interrupt =>
    obtain ⟨hc, rfl⟩ := guard_some hs
    have hlive := live_of_works hr hc.1
    split
    case isTrue => exact h.leave _ hlive (hset _) (hrunning hc.1)
    case isFalse => exact h.leave _ hlive (fun _ _ => .inl rfl) (hrunning hc.1)
  | finish =>
    obtain ⟨hc, rfl⟩ := guard_some hs
    exact h.move { r with stage := .done } ⟨hr, by simp [hc]⟩ rfl rfl rfl rfl
      (fun _ _ => .inl rfl) id (by simp) (by simp [Stage.works])
  | drop =>
    obtain ⟨hc, rfl⟩ := guard_some hs
    exact h.move { r with stage := .done } ⟨hr, by simp [hc.1]⟩ rfl rfl rfl rfl
      (fun _ _ => .inl rfl) id (by simp) (by simp [Stage.works])

/-! ## Commits -/

omit [DecidableEq I] [DecidableEq N] in
theorem Met.append {jobs more : List (Job I N M F)} {st st' : I → Status} {c : Job I N M F}
    (h : Met jobs st c) (hst : ∀ p ∈ jobs, st' p.id = st p.id) : Met (jobs ++ more) st' c := by
  intro d hd
  obtain ⟨p, hp, rfl, hs⟩ := h d hd
  exact ⟨p, List.mem_append_left _ hp, rfl, (hst p hp).trans hs⟩

variable [DecidableEq F]

omit [DecidableEq I] in
theorem loadable_append {r : Request N M F} {ids : List I} (h : Loadable q.jobs)
    (hlen : ids.length = r.nodes.length) (hfresh : q.Fresh ids) :
    Loadable (q.jobs ++ r.jobs ids) := by
  obtain ⟨hnodup, hnew⟩ := hfresh
  obtain ⟨horder, hself⟩ := Request.jobs_order (r := r) hnodup
  refine ⟨?_, List.pairwise_append.mpr ⟨h.order, horder, fun a ha b hb => ?_⟩, fun a ha => ?_⟩
  · rw [List.map_append, Request.jobs_ids hlen]
    refine List.nodup_append.mpr ⟨h.ids, hnodup, fun a ha i hi hai => ?_⟩
    obtain ⟨j, hj, rfl⟩ := List.mem_map.mp ha
    exact (hnew i hi j hj).1 hai
  · exact (hnew b.id (Request.mem_jobs hb).1 a ha).2
  · rcases List.mem_append.mp ha with ha | ha
    · exact h.self a ha
    · exact hself a ha

/-- A request's jobs are put at the end, with ids that are new. -/
theorem Good.commit (h : q.Good) {r : Request N M F} {ids : List I}
    (hlen : ids.length = r.nodes.length) (hfresh : q.Fresh ids)
    (hjobs : q'.jobs = q.jobs ++ r.jobs ids)
    (hstatus : ∀ x, q'.status x = if x ∈ ids then .queued else q.status x)
    (hruns : q'.runners = q.runners) (hactive : q'.active = q.active) : q'.Good := by
  have hkeep : ∀ p ∈ q.jobs, q'.status p.id = q.status p.id := by
    intro p hp
    rw [hstatus, if_neg]
    exact fun hi => (hfresh.2 p.id hi p hp).1 rfl
  refine ⟨hjobs ▸ loadable_append h.loadable hlen hfresh, fun k x hx => ?_, fun k x hx => ?_, fun e he => ?_,
    hactive ▸ h.apart, fun k x hx => ?_, fun k x hx hs => ?_, fun k x hx hs => ?_⟩
  · rw [hjobs]
    exact List.mem_append_left _ (h.known k x (hruns ▸ hx))
  · rw [hactive]
    exact h.listed k x ⟨hruns ▸ hx.1, hx.2⟩
  · rw [hruns]
    exact h.entries e (hactive ▸ he)
  · rw [hjobs]
    exact Met.append (h.met k x (hruns ▸ hx)) hkeep
  · rw [hkeep _ (h.known k x (hruns ▸ hx))]
    exact h.created k x (hruns ▸ hx) hs
  · rw [hkeep _ (h.known k x (hruns ▸ hx))]
    exact h.works k x (hruns ▸ hx) hs

/-! ## The steps -/

/-- When a `stop` clears the tables, no runner is left. -/
def Drained (q : State I N M F) : Label I N M F → Prop
  | .clear _ => ∀ r ∈ q.runners, r.stage = .done
  | _ => True

instance (q : State I N M F) (e : Label I N M F) : Decidable (q.Drained e) := by
  unfold Drained
  split <;> infer_instance

variable [DecidableEq M]

theorem good_step {e : Label I N M F} (h : q.Good) (hc : q.Drained e)
    (hs : q.step e = some q') : q'.Good := by
  cases e with
  | setting b | giveUp | start | reserve | endUpdate | stopDispatcher =>
    cases hs
    exact h.leaves rfl rfl (fun _ => rfl) .refl
  | queue r =>
    obtain ⟨_, rfl⟩ := guard_some hs
    exact h.leaves rfl rfl (fun _ => rfl) .refl
  | check =>
    simp only [step] at hs
    split at hs
    case h_2 => cases hs
    case h_1 =>
      split at hs
      case isTrue | isFalse =>
        cases hs
        exact h.leaves rfl rfl (fun _ => rfl) .refl
  | commit ids =>
    simp only [step] at hs
    split at hs
    case h_2 => cases hs
    case h_1 r heq =>
      obtain ⟨hcond, rfl⟩ := guard_some hs
      exact h.commit hcond.1 hcond.2 rfl (fun _ => rfl) rfl rfl
  | cancel i =>
    simp only [step] at hs
    split at hs
    case h_1 heq =>
      cases hs
      exact h.cancelTransfer heq
    case h_2 =>
      cases hs
      exact h
  | pass =>
    obtain ⟨_, rfl⟩ := guard_some hs
    exact h.pass
  | run k a =>
    simp only [step] at hs
    split at hs
    case h_2 => cases hs
    case h_1 r hr => exact h.act hr hs
  | stopRunners =>
    cases hs
    refine h.leaves rfl rfl (fun k => ?_) .refl
    rw [List.getElem?_mapIdx]
    cases q.runners[k]? with
    | none => rfl
    | some r =>
      split <;> rfl
  | clear p =>
    simp only [step] at hs
    split at hs
    case h_2 => cases hs
    case h_1 =>
      obtain ⟨_, rfl⟩ := guard_some hs
      refine ⟨h.loadable, h.known, fun k r hr => ?_, fun e he => absurd he List.not_mem_nil, .nil,
        h.met, h.created, h.works⟩
      exact absurd (hc r (List.mem_of_getElem? hr.1)) hr.2

/-- What the dispatcher is for. A job is being run from the moment the dispatcher has made its
runner. -/
structure Scheduled (q : State I N M F) : Prop where
  /-- A node takes part in one job at a time. -/
  exclusive : ∀ k r k' r', q.Live k r → q.Live k' r' → k ≠ k' →
    ∀ n ∈ r.job.endpoints, n ∉ r'.job.endpoints
  /-- Only jobs have been started whose dependency is completed, -/
  met : ∀ r ∈ q.runners, Met q.jobs q.status r.job
  /-- never one whose dependency has failed, was canceled or is missing, -/
  dead : ∀ r ∈ q.runners, ¬Dead q.jobs q.status r.job
  /-- which the next pass outside an update fails. -/
  failed : q.reserved = false → ∀ j ∈ q.jobs, q.status j.id = .queued → Dead q.jobs q.status j →
    q.pass.status j.id = .failed
  /-- Nothing is started during an update, -/
  held : q.reserved → q.pass.runners = q.runners
  /-- and after a pass outside one, a job that is still queued waits for its dependency or for a
  node of a job that runs. -/
  idle : q.reserved = false → ∀ j ∈ q.pass.jobs, q.pass.status j.id = .queued →
    Waits q.pass.jobs q.pass.status j ∨
      ∃ k r, q.pass.Live k r ∧ ∃ n ∈ j.endpoints, n ∈ r.job.endpoints

omit [DecidableEq F] [DecidableEq M] in
theorem Good.scheduled (h : q.Good) : q.Scheduled := by
  have hmet : ∀ r ∈ q.runners, Met q.jobs q.status r.job := by
    intro r hr
    obtain ⟨k, hk⟩ := List.mem_iff_getElem?.mp hr
    exact h.met k r hk
  obtain ⟨hjobs, hfails⟩ := pass_fails (q := q)
  refine ⟨fun k r k' r' hr hr' hne n hn => h.exclusive hr hr' hne hn, hmet,
    fun r hr => (hmet r hr).not_dead, fun hres j hj hqueued hdead => ?_, fun hres => ?_,
    fun hres j hj hqueued => ?_⟩
  · rcases hfails.leaves j.id with he | ⟨-, hf⟩
    · exfalso
      have hdead' : Dead q.jobs q.pass.status j := hdead.congr fun _ => hfails.leaves.dead
      rcases h.pass_idle hres hj (he.trans hqueued) with ⟨d, hd, p, hp, hpd, hs⟩ | ⟨hm, -⟩
      · obtain ⟨d', hd', hall⟩ := hdead'
        cases hd.symm.trans hd'
        have hs' := hall p (hjobs ▸ hp) hpd
        cases hst : q.pass.status d <;> simp_all [Status.active, Status.dead]
      · exact (hjobs ▸ hm).not_dead hdead'
    · exact hf
  · unfold State.pass
    rw [if_pos hres]
    rfl
  · exact (h.pass_idle hres (hjobs ▸ hj) hqueued).imp_right And.right

/-- **Scheduling**, over the runs that meet `Drained`. -/
theorem schedule_exclusive {enabled : Bool} {jobs : List (Job I N M F)} {status : I → Status}
    {tombstones : List I} (hload : Loadable jobs) {q : State I N M F}
    (h : Reach step Drained (init enabled jobs status tombstones) q) : q.Scheduled :=
  (h.invariant (P := Good) (good_init hload) fun _ _ _ hq hc hs => good_step hq hc hs).scheduled

/-- A download for two nodes, whose second is to get it by a transfer; an unrelated transfer; an update
in between, and a stop. -/
def fanOutRun : List (Label ℕ ℕ ℕ ℕ) :=
  [.queue (.download 7 (String.ofList (List.replicate 40 'a')) none 1 [] [2] none none true), .check,
    .commit [10, 11], .queue (.transfer 8 3 [4] none none false), .check, .commit [12], .pass,
    .run 0 .begin, .run 1 .begin, .reserve, .run 0 .dispatch, .run 0 .returned, .run 0 .complete,
    .pass, .endUpdate, .pass, .run 2 .begin, .stopDispatcher, .stopRunners, .run 2 .interrupt,
    .run 2 .finish, .run 1 .fail, .run 1 .finish, .clear 0, .start, .pass]

theorem schedule_exclusive_fanOut :
    ∃ q : State ℕ ℕ ℕ ℕ, Reach step Drained (init true [] (fun _ => .failed) []) q ∧
      q.runners.map (fun r => r.job.id) = [10, 12, 11, 11] ∧
      q.status 12 = .failed ∧ q.Scheduled := by
  have hrun : (replay step Drained (init true [] (fun _ => .failed) [] : State ℕ ℕ ℕ ℕ)
      fanOutRun).any (fun q => decide (q.runners.map (fun r => r.job.id) = [10, 12, 11, 11] ∧
        q.status 12 = .failed)) = true := by decide +kernel
  obtain ⟨q, hr, hq⟩ := reach_any hrun
  obtain ⟨hruns, hstatus⟩ := of_decide_eq_true hq
  refine ⟨q, hr, hruns, hstatus, schedule_exclusive ⟨?_, ?_, ?_⟩ hr⟩
  · simp
  · simp
  · simp

/-- The queue is switched off and on while a runner that was cancelled is not through: the tables
are cleared beside a runner that the second dispatcher has made. -/
def switchedRun : List (Label ℕ ℕ ℕ ℕ) :=
  [.queue (.transfer 7 0 [1] none none false), .check, .commit [10], .pass, .run 0 .begin,
    .setting false, .stopDispatcher, .stopRunners, .setting true, .start,
    .queue (.transfer 8 2 [3] none none false), .check, .commit [11], .pass,
    .queue (.transfer 9 3 [4] none none false), .check, .commit [12],
    .run 0 .interrupt, .run 0 .finish, .clear 0, .pass]

/-- Two jobs run that share a node. -/
theorem schedule_switched :
    ∃ q : State ℕ ℕ ℕ ℕ, Reach step Free (init true [] (fun _ => .failed) []) q ∧
      ¬q.Scheduled := by
  have hrun : (replay step Free (init true [] (fun _ => .failed) [] : State ℕ ℕ ℕ ℕ)
      switchedRun).any (fun q => decide (
        (q.runners[1]?).any (fun r => r.stage ≠ .done ∧ 3 ∈ r.job.endpoints) = true ∧
        (q.runners[3]?).any (fun r => r.stage ≠ .done ∧ 3 ∈ r.job.endpoints) = true)) = true := by
    decide +kernel
  obtain ⟨q, hr, hq⟩ := reach_any hrun
  obtain ⟨h1, h3⟩ := of_decide_eq_true hq
  refine ⟨q, hr, fun hs => ?_⟩
  obtain ⟨r, hr1, hp⟩ := (Option.any_eq_true ..).mp h1
  obtain ⟨r', hr3, hp'⟩ := (Option.any_eq_true ..).mp h3
  obtain ⟨hlive, hn⟩ := of_decide_eq_true hp
  obtain ⟨hlive', hn'⟩ := of_decide_eq_true hp'
  exact hs.exclusive 1 r 3 r' ⟨hr1, hlive⟩ ⟨hr3, hlive'⟩ (by decide) 3 hn hn'

end State

end SparkDeck.Vnas.Queue
