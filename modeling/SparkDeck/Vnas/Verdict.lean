import SparkDeck.Vnas.Schedule

/-!
# Verdicts

What becomes of the status of a job, in the runs in which no job is canceled between the pass that
makes its runner and the runner's first step (and in which `stop` clears the tables only when no runner
is left). `Firm` is the invariant: what `Good` says, and what holds of the statuses.

* `verdicts_final`: how a state and a later one are related (`Verdicts`).
* `verdicts_revived`: a run in which a canceled job is run.
-/

open Transition Function

namespace SparkDeck.Vnas.Queue

variable {I N M F : Type*}

/-- What the file of a queue holds: no two active jobs of one model and node, and no queued job that
depends on a canceled download. -/
structure Consistent (jobs : List (Job I N M F)) (st : I → Status) : Prop where
  loadable : Loadable jobs
  single : ∀ a ∈ jobs, ∀ b ∈ jobs, (st a.id).active → (st b.id).active →
    a.model = b.model → a.target = b.target → a = b
  cascaded : ∀ d ∈ jobs, d.kind = .download → st d.id = .canceled →
    ∀ j ∈ jobs, j.dependsOn = some d.id → st j.id ≠ .queued

namespace State

section

variable [DecidableEq N] [DecidableEq M]

theorem taken_iff {q : State I N M F} {m : M} {n : N} : q.taken m n ↔
    ∃ j ∈ q.jobs, j.model = m ∧ j.target = n ∧ (q.status j.id).active := by
  simp [taken]

variable [DecidableEq F]

structure Firm (q : State I N M F) : Prop where
  good : q.Good
  consistent : Consistent q.jobs q.status
  /-- A job whose runner has not run yet is still queued. -/
  fresh : ∀ (k : ℕ) r, q.runners[k]? = some r → r.stage = .created →
    q.status r.job.id = .queued
  /-- The nodes that the request under the lock has looked at are not taken. -/
  looked : ∀ r ns, q.queueing = some ⟨r, ns⟩ → r.valid ∧
    ∃ pre, r.nodes = pre ++ ns ∧ ∀ n ∈ pre, q.taken r.model n = false

end

variable {q q' : State I N M F}

/-- A runner of the job has not run yet, or is at work. -/
def Owned (q : State I N M F) (j : Job I N M F) : Prop :=
  ∃ k r, q.Live k r ∧ r.job = j ∧ (r.stage = .created ∨ r.stage.works)

/-- A status changes with the job's runner, or a queued job is canceled. -/
def Turns (q q' : State I N M F) : Prop :=
  ∀ j ∈ q.jobs, q'.status j.id = q.status j.id ∨
    q.status j.id = .queued ∧ q'.status j.id = .canceled ∨ q.Owned j

theorem Turns.of_eq (h : q'.status = q.status) : Turns q q' := fun _ _ => .inl (by rw [h])

theorem Turns.of_leaves (h : Leaves .canceled q.status q'.status) : Turns q q' :=
  fun j _ => (h j.id).imp_right .inl

variable [DecidableEq I] {k : ℕ} {j : Job I N M F}

/-- What a cascade on the job `i` does to the status. -/
theorem cascade_spares (h : q.Good) {i : I} {st : I → Status} (hi : q.status i ≠ .completed)
    (hst : ∀ x, st x = .queued → q.status x = .queued) (hj : j ∈ q.jobs)
    (hne : cascade q.jobs q.jobs.length i st j.id ≠ st j.id) {r : Runner I N M F}
    (hr : q.runners[k]? = some r) : r.job ≠ j := by
  rintro rfl
  obtain ⟨d, hd, hid, p, hp, hpi⟩ := cascade_traced _ _ _ _ hne
  obtain rfl := h.loadable.inj hd hj hid
  obtain ⟨-, -, -, hcomp⟩ := h.met k r hr p hp
  rcases hpi with rfl | hq
  · exact hi hcomp
  · rw [hst p hq] at hcomp
    cases hcomp

variable [DecidableEq N] [DecidableEq M] [DecidableEq F]

omit [DecidableEq I] in
/-- A change from which no job becomes active keeps what holds of the active jobs. -/
theorem Firm.next (h : q.Firm) (hgood : q'.Good) (hjobs : q'.jobs = q.jobs)
    (hqueueing : ∀ r ns, q'.queueing = some ⟨r, ns⟩ → q.queueing = some ⟨r, ns⟩)
    (hactive : ∀ j ∈ q.jobs, (q'.status j.id).active → (q.status j.id).active)
    (hfresh : ∀ (k : ℕ) r, q'.runners[k]? = some r → r.stage = .created →
      q'.status r.job.id = .queued)
    (hcascaded : ∀ d ∈ q.jobs, d.kind = .download → q'.status d.id = .canceled →
      ∀ j ∈ q.jobs, j.dependsOn = some d.id → q'.status j.id ≠ .queued) : q'.Firm := by
  refine ⟨hgood, ⟨hgood.loadable, fun a ha b hb hact hact' hm ht => ?_, ?_⟩, hfresh,
    fun r ns hr => ?_⟩
  · rw [hjobs] at ha hb
    exact h.consistent.single a ha b hb (hactive a ha hact) (hactive b hb hact') hm ht
  · rw [hjobs]
    exact hcascaded
  · obtain ⟨hvalid, pre, hpre, hall⟩ := h.looked r ns (hqueueing r ns hr)
    refine ⟨hvalid, pre, hpre, fun n hn => ?_⟩
    refine Bool.eq_false_iff.mpr fun htaken => ?_
    obtain ⟨j, hj, hjm, hjn, hact⟩ := taken_iff.mp htaken
    rw [hjobs] at hj
    have hold : q.taken r.model n := taken_iff.mpr ⟨j, hj, hjm, hjn, hactive j hj hact⟩
    rw [hall n hn] at hold
    cases hold

omit [DecidableEq I] in
/-- Neither a status nor a runner's stage changes. -/
theorem Firm.still (h : q.Firm) (hgood : q'.Good) (hjobs : q'.jobs = q.jobs)
    (hqueueing : ∀ r ns, q'.queueing = some ⟨r, ns⟩ → q.queueing = some ⟨r, ns⟩)
    (hstatus : q'.status = q.status)
    (hruns : ∀ k : ℕ, (q'.runners[k]?).map (fun r => (r.job, r.stage)) =
      (q.runners[k]?).map fun r => (r.job, r.stage)) : q'.Firm := by
  refine h.next hgood hjobs hqueueing (fun j _ => hstatus ▸ id) (fun k r' hr' hs => ?_)
    (hstatus ▸ h.consistent.cascaded)
  have hk := hruns k
  rw [hr', Option.map_some] at hk
  obtain ⟨r, hr, he⟩ := Option.map_eq_some_iff.mp hk.symm
  rw [hstatus, ← (Prod.mk.inj he).1]
  exact h.fresh k r hr ((Prod.mk.inj he).2.trans hs)

/-- A queued job is canceled that no runner was made for, and what depends on it. -/
theorem Firm.cancelTransfer (h : q.Firm) {i : I}
    (hcareful : q.status i = .queued → ∀ r ∈ q.runners, r.job.id = i → r.stage = .done)
    (hc : q.cancelTransfer i = .ok q') : q'.Firm ∧ Turns q q' := by
  have hgood := h.good.cancelTransfer hc
  rcases cancelTransfer_cases hc with rfl | ⟨-, rfl⟩ | ⟨hq, -, rfl⟩
  · exact ⟨h, .of_eq rfl⟩
  · obtain ⟨hjobs, -, hstatus, hruns⟩ := q.signal_frame i
    refine ⟨h.still hgood hjobs (fun r ns => ?_) hstatus hruns, .of_eq hstatus⟩
    unfold State.signal
    split
    · exact id
    · split <;> exact id
  · set c := (q.setStatus i .canceled).cancelDependents i with hcdef
    obtain ⟨hjobs, -, hstatus, hruns⟩ := c.signal_frame i
    have hupd : Leaves .canceled q.status (update q.status i .canceled) := .update hq
    have hleave : Leaves .canceled q.status (c.signal i).status := by
      rw [hstatus]
      exact hupd.trans (cancelDependents_leaves i)
    have hbound : (queuedJobs q.jobs (update q.status i .canceled)).length ≤
        q.jobs.length := List.length_filter_le ..
    refine ⟨h.next hgood hjobs ?_ (fun j _ hact => ?_) (fun k r' hr' hs => ?_)
      fun d hd hkind hdc j hj hjd hjq => ?_, .of_leaves hleave⟩
    · unfold State.signal
      split
      · exact fun _ _ => id
      · split <;> exact fun _ _ => id
    · rcases hleave j.id with he | ⟨hqj, -⟩
      · rw [← he]
        exact hact
      · rw [hqj]
        rfl
    · have hk := hruns k
      rw [hr', Option.map_some] at hk
      obtain ⟨r, hr, he⟩ := Option.map_eq_some_iff.mp hk.symm
      obtain ⟨hjob, hstage⟩ := Prod.mk.inj he
      rw [← hjob, hstatus]
      have hcreated := hstage.trans hs
      have hne : r.job.id ≠ i := fun hid => by
        have hdone := hcareful hq r (List.mem_of_getElem? hr) hid
        cases hcreated.symm.trans hdone
      have hmem := h.good.known k r hr
      have hsame : c.status r.job.id = update q.status i .canceled r.job.id := by
        by_contra hdiff
        exact cascade_spares h.good (by simp [hq]) (fun x hx => hupd.queued (by decide) hx) hmem
          hdiff hr rfl
      rw [hsame, update_of_ne hne]
      exact h.fresh k r hr hcreated
    · have hjq' : q.status j.id = .queued := hleave.queued (by decide) hjq
      rw [hstatus] at hdc hjq
      by_cases hold : q.status d.id = .canceled
      · exact h.consistent.cascaded d hd hkind hold j hj hjd hjq'
      · refine cascade_closed q.jobs _ i _ hbound (p := d.id) ?_ hj hjd hjq
        by_cases hdi : d.id = i
        · exact .inl hdi
        · refine .inr ⟨?_, hdc⟩
          have hdq := (hleave d.id).resolve_left fun he => hold (by rw [← he, hstatus, hdc])
          rw [update_of_ne hdi, hdq.1]

/-! ## Runners -/

omit [DecidableEq I] [DecidableEq N] [DecidableEq M] [DecidableEq F] in
theorem set_cases {k p : ℕ} {r' x : Runner I N M F} (hruns : q'.runners = q.runners.set k r')
    (hx : q'.runners[p]? = some x) : p = k ∧ x = r' ∨ p ≠ k ∧ q.runners[p]? = some x := by
  rw [hruns, List.getElem?_set] at hx
  split at hx
  case isTrue hp =>
    split at hx
    case isTrue => exact .inl ⟨hp.symm, (Option.some.inj hx).symm⟩
    case isFalse => cases hx
  case isFalse hp => exact .inr ⟨fun he => hp he.symm, hx⟩

omit [DecidableEq I] in
/-- A runner goes on, and no status changes. -/
theorem Firm.quiet (h : q.Firm) {r' : Runner I N M F} (hgood : q'.Good) (hjobs : q'.jobs = q.jobs)
    (hqueueing : q'.queueing = q.queueing) (hstatus : q'.status = q.status)
    (hruns : q'.runners = q.runners.set k r') (hr' : r'.stage ≠ .created) : q'.Firm := by
  refine h.next hgood hjobs (fun _ _ => hqueueing ▸ id) (fun j _ => hstatus ▸ id)
    (fun p x hx hs => ?_) (hstatus ▸ h.consistent.cascaded)
  rcases set_cases hruns hx with ⟨-, rfl⟩ | ⟨-, hx⟩
  · exact absurd hs hr'
  · rw [hstatus]
    exact h.fresh p x hx hs

variable {r r' : Runner I N M F}

omit [DecidableEq I] in
/-- A runner changes the status of its job, and may cancel queued jobs that have no runner. -/
theorem Firm.own (h : q.Firm) (hr : q.Live k r) (hstage : r.stage = .created ∨ r.stage.works)
    (hgood : q'.Good) (hjobs : q'.jobs = q.jobs) (hqueueing : q'.queueing = q.queueing)
    (hruns : q'.runners = q.runners.set k r') (hr' : r'.stage ≠ .created)
    (hother : ∀ j ∈ q.jobs, j.id ≠ r.job.id → q'.status j.id = q.status j.id ∨ q.status j.id = .queued ∧ q'.status j.id = .canceled ∧ ∀ x ∈ q.runners, x.job ≠ j)
    (hcascaded : ∀ d ∈ q.jobs, d.kind = .download → q'.status d.id = .canceled → ∀ j ∈ q.jobs, j.dependsOn = some d.id → q'.status j.id ≠ .queued) :
    q'.Firm ∧ Turns q q' := by
  have hown : (q.status r.job.id).active := by
    rcases hstage with hs | hs
    · rw [h.fresh k r hr.1 hs]
      rfl
    · rw [h.good.works k r hr.1 hs]
      rfl
  constructor
  · refine h.next hgood hjobs (fun _ _ => hqueueing ▸ id) (fun j hj hact => ?_)
      (fun p x hx hs => ?_) hcascaded
    · by_cases hid : j.id = r.job.id
      · rw [hid]
        exact hown
      · rcases hother j hj hid with he | ⟨hq, -⟩
        · rw [← he]
          exact hact
        · rw [hq]
          rfl
    · rcases set_cases hruns hx with ⟨-, rfl⟩ | ⟨hp, hx⟩
      · exact absurd hs hr'
      · have hid : x.job.id ≠ r.job.id := fun hid =>
          hp (h.good.alone (live_of_created hx hs) hr hid)
        rcases hother x.job (h.good.known p x hx) hid with he | ⟨-, -, hnone⟩
        · rw [he]
          exact h.fresh p x hx hs
        · exact absurd rfl (hnone x (List.mem_of_getElem? hx))
  · intro j hj
    by_cases hid : j.id = r.job.id
    · exact .inr (.inr ⟨k, r, hr, h.good.loadable.inj (h.good.known k r hr.1) hj hid.symm, hstage⟩)
    · rcases hother j hj hid with he | ⟨hq, hc, -⟩
      · exact .inl he
      · exact .inr (.inl ⟨hq, hc⟩)

/-- A runner changes the status of its job only. -/
theorem Firm.settle (h : q.Firm) {s : Status} (hr : q.Live k r)
    (hstage : r.stage = .created ∨ r.stage.works) (hgood : q'.Good)
    (hjobs : q'.jobs = q.jobs) (hqueueing : q'.queueing = q.queueing)
    (hruns : q'.runners = q.runners.set k r') (hr' : r'.stage ≠ .created)
    (hstatus : q'.status = update q.status r.job.id s)
    (hkind : s = .canceled → r.job.kind = .transfer) : q'.Firm ∧ Turns q q' := by
  have hkeep : ∀ {x}, x ≠ r.job.id → q'.status x = q.status x := by
    intro x hx
    rw [hstatus, update_of_ne hx]
  have hown : q'.status r.job.id = s := by rw [hstatus, update_self]
  refine h.own hr hstage hgood hjobs hqueueing hruns hr' (fun j _ hid => .inl (hkeep hid))
    fun d hd hdk hdc j hj hjd hjq => ?_
  by_cases hdid : d.id = r.job.id
  · obtain rfl := h.good.loadable.inj hd (h.good.known k r hr.1) hdid
    rw [hown] at hdc
    rw [hkind hdc] at hdk
    cases hdk
  · rw [hkeep hdid] at hdc
    by_cases hjid : j.id = r.job.id
    · obtain rfl := h.good.loadable.inj hj (h.good.known k r hr.1) hjid
      obtain ⟨-, -, -, hcomp⟩ := h.good.met k r hr.1 d.id hjd
      cases hdc.symm.trans hcomp
    · rw [hkeep hjid] at hjq
      exact h.consistent.cascaded d hd hdk hdc j hj hjd hjq

/-- A download's runner cancels it, and what depends on it. -/
theorem Firm.cancelOwn (h : q.Firm) (hr : q.Live k r) (hworks : r.stage.works)
    (hgood : q'.Good) (hjobs : q'.jobs = q.jobs) (hqueueing : q'.queueing = q.queueing)
    (hruns : q'.runners = q.runners.set k r') (hr' : r'.stage ≠ .created)
    (hstatus : q'.status = ((q.setStatus r.job.id .canceled).cancelDependents r.job.id).status) :
    q'.Firm ∧ Turns q q' := by
  have hrunning := h.good.works k r hr.1 hworks
  have hupd : ∀ x, update q.status r.job.id .canceled x = .queued →
      q.status x = .queued := by
    intro x hx
    rw [update_apply] at hx
    split at hx
    case isTrue => cases hx
    case isFalse => exact hx
  have hleave := cascade_leaves q.jobs q.jobs.length r.job.id
    (update q.status r.job.id .canceled)
  have hbound : (queuedJobs q.jobs (update q.status r.job.id .canceled)).length ≤
      q.jobs.length := List.length_filter_le ..
  change q'.status = cascade q.jobs q.jobs.length r.job.id
    (update q.status r.job.id .canceled) at hstatus
  refine h.own hr (.inr hworks) hgood hjobs hqueueing hruns hr' (fun j hj hid => ?_)
    fun d hd hdk hdc j hj hjd hjq => ?_
  · rw [hstatus]
    by_cases he : cascade q.jobs q.jobs.length r.job.id
        (update q.status r.job.id .canceled) j.id =
        update q.status r.job.id .canceled j.id
    · rw [he, update_of_ne hid]
      exact .inl rfl
    · obtain ⟨hq, hc⟩ := (hleave j.id).resolve_left he
      refine .inr ⟨hupd _ hq, hc, fun x hx => ?_⟩
      obtain ⟨p, hp⟩ := List.mem_iff_getElem?.mp hx
      exact cascade_spares h.good (by simp [hrunning]) hupd hj he hp
  · rw [hstatus] at hdc hjq
    have hjq' := hupd _ (hleave.queued (by decide) hjq)
    by_cases hold : q.status d.id = .canceled
    · exact h.consistent.cascaded d hd hdk hold j hj hjd hjq'
    · refine cascade_closed q.jobs _ _ _ hbound (p := d.id) ?_ hj hjd hjq
      by_cases hdi : d.id = r.job.id
      · exact .inl hdi
      · refine .inr ⟨?_, hdc⟩
        refine ((hleave d.id).resolve_left fun he => hold ?_).1
        rw [← hdc, he, update_of_ne hdi]

omit [DecidableEq N] [DecidableEq M] [DecidableEq F] in
theorem leave_frame (q : State I N M F) (k : ℕ) (r : Runner I N M F) :
    (q.leave k r).jobs = q.jobs ∧ (q.leave k r).status = q.status ∧
      (q.leave k r).queueing = q.queueing ∧
      ∃ r', r'.stage ≠ .created ∧ (q.leave k r).runners = q.runners.set k r' := by
  unfold State.leave
  split
  case h_1 => exact ⟨rfl, rfl, rfl, { r with stage := .done, cancelling := false }, by simp, rfl⟩
  case h_2 =>
    exact ⟨rfl, rfl, rfl, { r with stage := .closing, cancelling := false }, by simp, rfl⟩

omit [DecidableEq N] [DecidableEq M] [DecidableEq F] in
theorem act_jobs {r : Runner I N M F} {a : Act} (hs : q.act k r a = some q') :
    q'.jobs = q.jobs := by
  cases a with
  | complete | fail =>
    obtain ⟨_, rfl⟩ := guard_some hs
    exact (leave_frame _ k r).1
  | cancel | interrupt =>
    obtain ⟨_, rfl⟩ := guard_some hs
    split
    · exact (leave_frame _ k r).1
    · exact (leave_frame _ k r).1
  | begin =>
    obtain ⟨_, rfl⟩ := guard_some hs
    split <;> rfl
  | _ =>
    obtain ⟨_, rfl⟩ := guard_some hs
    rfl

theorem Firm.act (h : q.Firm) {r : Runner I N M F} (hr : q.runners[k]? = some r) {a : Act}
    (hs : q.act k r a = some q') : q'.Firm ∧ Turns q q' := by
  have hgood := h.good.act hr hs
  cases a with
  | begin =>
    obtain ⟨hc, rfl⟩ := guard_some hs
    cases hk : r.job.kind with
    | download | transfer =>
      rw [hk] at hgood
      exact h.settle (live_of_created hr hc.1) (.inl hc.1) hgood
        rfl rfl rfl (by simp) rfl nofun
  | abandon | rollback | finish | drop =>
    obtain ⟨_, rfl⟩ := guard_some hs
    exact ⟨h.quiet hgood rfl rfl rfl rfl (by simp), .of_eq rfl⟩
  | capable | stopWriter =>
    obtain ⟨_, rfl⟩ := guard_some hs
    exact ⟨h.still hgood rfl (fun _ _ => id) rfl (fun _ => rfl), .of_eq rfl⟩
  | dispatch | lose | unconfirmed | returned =>
    obtain ⟨hc, rfl⟩ := guard_some hs
    exact ⟨h.quiet hgood rfl rfl rfl rfl (by simp [hc.1]), .of_eq rfl⟩
  | complete =>
    obtain ⟨hc, rfl⟩ := guard_some hs
    have hw : r.stage.works := by rw [hc.1]; rfl
    obtain ⟨hjobs, hstatus, hqueueing, r', hr', hruns⟩ :=
      leave_frame (q.setStatus r.job.id .completed) k r
    exact h.settle (live_of_works hr hw) (.inr hw) hgood hjobs hqueueing hruns hr' hstatus
      nofun
  | fail =>
    obtain ⟨hw, rfl⟩ := guard_some hs
    obtain ⟨hjobs, hstatus, hqueueing, r', hr', hruns⟩ :=
      leave_frame (q.setStatus r.job.id .failed) k r
    exact h.settle (live_of_works hr hw) (.inr hw) hgood hjobs hqueueing hruns hr' hstatus
      nofun
  | cancel =>
    obtain ⟨hc, rfl⟩ := guard_some hs
    have hlive := live_of_works hr hc.1
    split at hgood
    case h_1 hk =>
      obtain ⟨hjobs, hstatus, hqueueing, r', hr', hruns⟩ :=
        leave_frame ((q.setStatus r.job.id .canceled).cancelDependents r.job.id) k r
      exact h.cancelOwn hlive hc.1 hgood hjobs hqueueing hruns hr' hstatus
    case h_2 hk =>
      obtain ⟨hjobs, hstatus, hqueueing, r', hr', hruns⟩ :=
        leave_frame (q.setStatus r.job.id .canceled) k r
      exact h.settle hlive (.inr hc.1) hgood hjobs hqueueing hruns hr' hstatus fun _ => hk
  | interrupt =>
    obtain ⟨hc, rfl⟩ := guard_some hs
    have hlive := live_of_works hr hc.1
    split at hgood
    case isTrue hb =>
      rw [if_pos hb]
      obtain ⟨hjobs, hstatus, hqueueing, r', hr', hruns⟩ :=
        leave_frame (q.setStatus r.job.id .queued) k r
      exact h.settle hlive (.inr hc.1) hgood hjobs hqueueing hruns hr' hstatus
        nofun
    case isFalse hb =>
      rw [if_neg hb]
      obtain ⟨hjobs, hstatus, hqueueing, r', hr', hruns⟩ := leave_frame q k r
      exact ⟨h.quiet hgood hjobs hqueueing hstatus hruns hr', .of_eq hstatus⟩

/-! ## The dispatcher and commits -/

omit [DecidableEq M] [DecidableEq F] in
theorem fill_frame {n : ℕ} : (fill n q).queueing = q.queueing ∧
    ∀ (k : ℕ) r, (fill n q).runners[k]? = some r →
      q.runners[k]? = some r ∨ (fill n q).status r.job.id ≠ .canceled := by
  induction n generalizing q with
  | zero => exact ⟨rfl, fun _ _ => .inl⟩
  | succ n ih =>
    obtain ⟨hfails, -, hfound⟩ := nextQueueJob_spec q.busy q.jobs (fun _ => id) q.status
    unfold fill
    split
    case h_1 => exact ⟨rfl, fun _ _ => .inl⟩
    case h_2 st j heq =>
      rw [heq] at hfound
      obtain ⟨-, hqueued, -⟩ := hfound j rfl
      obtain ⟨hqueueing, hruns⟩ := ih (q := { q with status := st }.launch j)
      obtain ⟨-, hlater⟩ := fill_fails (n := n) (q := { q with status := st }.launch j)
      refine ⟨hqueueing, fun k r hr => ?_⟩
      rcases hruns k r hr with hr' | hne
      · change (q.runners ++ [_])[k]? = some r at hr'
        rw [List.getElem?_append] at hr'
        split at hr'
        case isTrue => exact .inl hr'
        case isFalse =>
          rw [List.getElem?_singleton] at hr'
          split at hr'
          case isFalse => cases hr'
          case isTrue =>
            cases hr'
            refine .inr fun hc => ?_
            rcases hlater.leaves j.id with he | ⟨-, he⟩
            · have hq := he.symm.trans hc
              exact Status.noConfusion (hqueued.symm.trans hq)
            · exact Status.noConfusion (he.symm.trans hc)
      · exact .inr hne

omit [DecidableEq F] [DecidableEq M] in
theorem pass_frame : q.pass.queueing = q.queueing ∧
    ∀ (k : ℕ) r, q.pass.runners[k]? = some r →
      q.runners[k]? = some r ∨ q.pass.status r.job.id ≠ .canceled := by
  unfold State.pass
  split
  case isTrue => exact ⟨rfl, fun _ _ => .inl⟩
  case isFalse => exact fill_frame

theorem Firm.pass (h : q.Firm) : q.pass.Firm := by
  have hgood := h.good.pass
  obtain ⟨hjobs, hfails⟩ := pass_fails (q := q)
  obtain ⟨hqueueing, hruns⟩ := pass_frame (q := q)
  refine h.next hgood hjobs (fun _ _ => hqueueing ▸ id) (fun j _ hact => ?_) (fun k r hr hs => ?_)
    fun d hd hdk hdc j hj hjd hjq => ?_
  · rcases hfails.leaves j.id with he | ⟨hq, -⟩
    · rw [← he]
      exact hact
    · rw [hq]
      rfl
  · refine (hgood.created k r hr hs).resolve_right fun hc => ?_
    rcases hruns k r hr with hold | hne
    · have hq := h.fresh k r hold hs
      rcases hfails.leaves r.job.id with he | ⟨-, he⟩
      · rw [he, hq] at hc
        cases hc
      · exact Status.noConfusion (he.symm.trans hc)
    · exact hne hc
  · have hdc' : q.status d.id = .canceled := by
      rcases hfails.leaves d.id with he | ⟨-, he⟩
      · rw [← he, hdc]
      · exact Status.noConfusion (he.symm.trans hdc)
    exact h.consistent.cascaded d hd hdk hdc' j hj hjd (hfails.leaves.queued (by decide) hjq)

theorem Firm.commit (h : q.Firm) {r : Request N M F} {ids : List I} (hgood : q'.Good)
    (hqueueing : q.queueing = some ⟨r, []⟩) (hlen : ids.length = r.nodes.length)
    (hfresh : q.Fresh ids) (hjobs : q'.jobs = q.jobs ++ r.jobs ids)
    (hstatus : ∀ x, q'.status x = if x ∈ ids then .queued else q.status x)
    (hruns : q'.runners = q.runners) (hnone : q'.queueing = none) : q'.Firm ∧ Turns q q' := by
  have hkeep : ∀ {p}, p ∈ q.jobs → q'.status p.id = q.status p.id := by
    intro p hp
    rw [hstatus, if_neg]
    exact fun hi => (hfresh.2 p.id hi p hp).1 rfl
  obtain ⟨hvalid, pre, hpre, hlooked⟩ := h.looked r [] hqueueing
  rw [List.append_nil] at hpre
  -- an old active job is not for a node of the request
  have hold : ∀ {a b}, a ∈ q.jobs → (q.status a.id).active → b ∈ r.jobs ids →
      a.model = b.model → a.target = b.target → False := by
    intro a b ha hact hb hm ht
    obtain ⟨-, hnode, hmodel, -⟩ := Request.mem_jobs hb
    have hfree := hlooked b.target (hpre ▸ hnode)
    have htaken : q.taken r.model b.target :=
      taken_iff.mpr ⟨a, ha, hm.trans hmodel, ht, hact⟩
    cases hfree.symm.trans htaken
  have hnew : ∀ {a b}, a ∈ r.jobs ids → b ∈ r.jobs ids → a.target = b.target → a = b := by
    intro a b ha hb ht
    refine List.inj_on_of_nodup_map ?_ ha hb ht
    rw [Request.jobs_targets hlen]
    exact Request.nodes_nodup hvalid
  refine ⟨⟨hgood, ⟨hgood.loadable, fun a ha b hb hact hact' hm ht => ?_,
    fun d hd hdk hdc j hj hjd hjq => ?_⟩, fun k x hx hs => ?_, fun r ns hr => ?_⟩, ?_⟩
  · rw [hjobs] at ha hb
    rcases List.mem_append.mp ha with ha | ha
    · rw [hkeep ha] at hact
      rcases List.mem_append.mp hb with hb | hb
      · rw [hkeep hb] at hact'
        exact h.consistent.single a ha b hb hact hact' hm ht
      · exact (hold ha hact hb hm ht).elim
    · rcases List.mem_append.mp hb with hb | hb
      · rw [hkeep hb] at hact'
        exact (hold hb hact' ha hm.symm ht.symm).elim
      · exact hnew ha hb ht
  · rw [hjobs] at hd hj
    rcases List.mem_append.mp hd with hd | hd
    · rw [hkeep hd] at hdc
      rcases List.mem_append.mp hj with hj | hj
      · rw [hkeep hj] at hjq
        exact h.consistent.cascaded d hd hdk hdc j hj hjd hjq
      · obtain ⟨-, -, -, hdep⟩ := Request.mem_jobs hj
        have hmem := List.mem_of_head? (hdep d.id hjd)
        exact (hfresh.2 d.id hmem d hd).1 rfl
    · have hid := (Request.mem_jobs hd).1
      rw [hstatus, if_pos hid] at hdc
      cases hdc
  · rw [hruns] at hx
    rw [hkeep (h.good.known k x hx)]
    exact h.fresh k x hx hs
  · cases hnone.symm.trans hr
  · exact fun j hj => .inl (hkeep hj)

/-! ## The steps -/

/-- A queued job is canceled only when no runner was made for it; and when a `stop` clears the
tables, no runner is left. -/
def Careful (q : State I N M F) : Label I N M F → Prop
  | .cancel i => q.status i = .queued → ∀ r ∈ q.runners, r.job.id = i → r.stage = .done
  | .clear _ => ∀ r ∈ q.runners, r.stage = .done
  | _ => True

instance (q : State I N M F) : ∀ e : Label I N M F, Decidable (q.Careful e)
  | .cancel _ => inferInstanceAs (Decidable (_ = _ → ∀ _ ∈ _, _ = _ → _ = _))
  | .clear _ => inferInstanceAs (Decidable (∀ _ ∈ _, _ = _))
  | .setting _ | .queue _ | .check | .giveUp | .commit _ | .start | .pass | .run _ _ | .reserve
  | .endUpdate | .stopDispatcher | .stopRunners => isTrue trivial

variable {e : Label I N M F}

omit [DecidableEq I] [DecidableEq N] [DecidableEq M] [DecidableEq F] in
theorem Careful.drained (hc : q.Careful e) : q.Drained e := by
  cases e <;> first | exact hc | trivial

theorem firm_step (h : q.Firm) (hc : q.Careful e) (hs : q.step e = some q') :
    q'.Firm ∧ (Fails q.jobs q.status q'.status ∨ Turns q q') := by
  have hgood := good_step h.good hc.drained hs
  cases e with
  | setting | start | reserve | endUpdate | stopDispatcher =>
    cases hs
    exact ⟨h.still hgood rfl (fun _ _ => id) rfl (fun _ => rfl), .inr (.of_eq rfl)⟩
  | giveUp =>
    cases hs
    exact ⟨h.still hgood rfl nofun rfl (fun _ => rfl), .inr (.of_eq rfl)⟩
  | queue r =>
    obtain ⟨hcond, rfl⟩ := guard_some hs
    refine ⟨⟨hgood, h.consistent, h.fresh, fun r' ns hr => ?_⟩, .inr (.of_eq rfl)⟩
    cases hr
    exact ⟨hcond.2.2.1, [], rfl, fun n hn => absurd hn List.not_mem_nil⟩
  | check =>
    simp only [step] at hs
    split at hs
    case h_2 => cases hs
    case h_1 r ns heq =>
      split at hs
      case isTrue =>
        cases hs
        exact ⟨h.still hgood rfl nofun rfl (fun _ => rfl), .inr (.of_eq rfl)⟩
      case isFalse hfree =>
        cases hs
        refine ⟨⟨hgood, h.consistent, h.fresh, fun r' ns' hr => ?_⟩, .inr (.of_eq rfl)⟩
        cases hr
        obtain ⟨hvalid, pre, hpre, hall⟩ := h.looked r ns heq
        have htake : r.next ns = ns.take (r.next ns).length := by
          cases r <;> simp [Request.next]
        refine ⟨hvalid, pre ++ r.next ns, ?_, fun n hn => ?_⟩
        · rw [List.append_assoc]
          nth_rewrite 1 [htake]
          rw [List.take_append_drop, hpre]
        · rcases List.mem_append.mp hn with hn | hn
          · exact hall n hn
          · exact Bool.eq_false_iff.mpr fun ht => hfree (List.any_eq_true.mpr ⟨n, hn, ht⟩)
  | commit ids =>
    simp only [step] at hs
    split at hs
    case h_2 => cases hs
    case h_1 r heq =>
      obtain ⟨hcond, rfl⟩ := guard_some hs
      exact (h.commit hgood heq hcond.1 hcond.2 rfl (fun _ => rfl) rfl rfl).imp_right .inr
  | cancel i =>
    simp only [step] at hs
    split at hs
    case h_1 heq =>
      cases hs
      exact (h.cancelTransfer hc heq).imp_right .inr
    case h_2 =>
      cases hs
      exact ⟨h, .inr (.of_eq rfl)⟩
  | pass =>
    obtain ⟨_, rfl⟩ := guard_some hs
    exact ⟨h.pass, .inl pass_fails.2⟩
  | run k a =>
    simp only [step] at hs
    split at hs
    case h_2 => cases hs
    case h_1 r hr => exact (h.act hr hs).imp_right .inr
  | stopRunners =>
    cases hs
    refine ⟨h.still hgood rfl (fun _ _ => id) rfl (fun k => ?_), .inr (.of_eq rfl)⟩
    rw [List.getElem?_mapIdx]
    cases q.runners[k]? with
    | none => rfl
    | some r =>
      split <;> rfl
  | clear p =>
    simp only [step] at hs
    split at hs
    case h_2 => cases hs
    case h_1 =>
      obtain ⟨_, rfl⟩ := guard_some hs
      exact ⟨h.still hgood rfl (fun _ _ => id) rfl (fun _ => rfl), .inr (.of_eq rfl)⟩

/-- Jobs are put at the end of the queue, and none is taken off. -/
theorem jobs_step (hs : q.step e = some q') : q.jobs <+: q'.jobs := by
  cases e with
  | setting | start | reserve | endUpdate | stopDispatcher | giveUp | stopRunners =>
    cases hs
    exact List.prefix_rfl
  | queue r =>
    obtain ⟨_, rfl⟩ := guard_some hs
    exact List.prefix_rfl
  | check =>
    simp only [step] at hs
    split at hs
    case h_2 => cases hs
    case h_1 =>
      split at hs
      case isTrue | isFalse =>
        cases hs
        exact List.prefix_rfl
  | commit ids =>
    simp only [step] at hs
    split at hs
    case h_2 => cases hs
    case h_1 =>
      obtain ⟨_, rfl⟩ := guard_some hs
      exact List.prefix_append ..
  | cancel i =>
    simp only [step] at hs
    split at hs
    case h_1 heq =>
      cases hs
      rcases cancelTransfer_cases heq with rfl | ⟨-, rfl⟩ | ⟨-, -, rfl⟩
      · exact List.prefix_rfl
      · exact (q.signal_frame i).1 ▸ List.prefix_rfl
      · exact (State.signal_frame i).1.symm ▸ List.prefix_rfl
    case h_2 =>
      cases hs
      exact List.prefix_rfl
  | pass =>
    obtain ⟨_, rfl⟩ := guard_some hs
    have hjobs : q.pass.jobs = q.jobs := pass_fails.1
    exact hjobs.symm ▸ List.prefix_rfl
  | run k a =>
    simp only [step] at hs
    split at hs
    case h_2 => cases hs
    case h_1 r hr =>
      exact (act_jobs hs).symm ▸ List.prefix_rfl
  | clear p =>
    simp only [step] at hs
    split at hs
    case h_2 => cases hs
    case h_1 =>
      obtain ⟨_, rfl⟩ := guard_some hs
      exact List.prefix_rfl

/-! ## Verdicts over a run -/

omit [DecidableEq I] in
theorem active_of_owned (h : q.Firm) (ho : q.Owned j) : (q.status j.id).active := by
  obtain ⟨k, r, hr, rfl, hs | hs⟩ := ho
  · rw [h.fresh k r hr.1 hs]
    rfl
  · rw [h.good.works k r hr.1 hs]
    rfl

/-- A step changes no final status. -/
theorem final_step (h : q.Firm) (hc : q.Careful e) (hs : q.step e = some q') (hj : j ∈ q.jobs)
    (hfinal : (q.status j.id).final) : q'.status j.id = q.status j.id := by
  have hqueued : q.status j.id ≠ .queued := fun hq => by
    rw [hq] at hfinal
    cases hfinal
  rcases (firm_step h hc hs).2 with hfails | hturns
  · exact hfails.leaves.keep hqueued
  · rcases hturns j hj with he | ⟨hq, -⟩ | ho
    · exact he
    · exact absurd hq hqueued
    · rw [Status.final_eq_false_of_active (active_of_owned h ho)] at hfinal
      cases hfinal

/-- A job and its dependency, from when the job is queued: it is canceled as soon as the dependency
is. -/
def Follows (j d : Job I N M F) (q : State I N M F) : Prop :=
  q.status d.id = .completed ∨ q.status d.id = .failed ∨ q.status j.id = .canceled ∨
    q.status j.id = .queued ∧ (q.status d.id).active

theorem follows_step (h : q.Firm) (hc : q.Careful e) (hs : q.step e = some q') {j d : Job I N M F}
    (hj : j ∈ q.jobs) (hd : d ∈ q.jobs) (hk : d.kind = .download) (hjd : j.dependsOn = some d.id)
    (hf : Follows j d q) : Follows j d q' := by
  have hfinal := fun {x : Job I N M F} (hx : x ∈ q.jobs) => final_step h hc hs hx
  rcases hf with hdc | hdf | hjc | ⟨hjq, hact⟩
  · exact .inl ((hfinal hd (by rw [hdc]; rfl)).trans hdc)
  · exact .inr (.inl ((hfinal hd (by rw [hdf]; rfl)).trans hdf))
  · exact .inr (.inr (.inl ((hfinal hj (by rw [hjc]; rfl)).trans hjc)))
  · obtain ⟨hfirm', hchange⟩ := firm_step h hc hs
    have hsub := (jobs_step hs).subset
    -- the dependency is not completed, so the job has no runner
    have hnone : ¬q.Owned j := by
      rintro ⟨k, r, hr, rfl, -⟩
      obtain ⟨-, -, -, hcomp⟩ := h.good.met k r hr.1 d.id hjd
      rw [hcomp] at hact
      cases hact
    rcases hchange with hfails | hturns
    · rcases hfails.leaves d.id with hdsame | ⟨-, hdf⟩
      · rcases hfails.leaves j.id with hjsame | ⟨-, hjf⟩
        · exact .inr (.inr (.inr ⟨hjsame.trans hjq, hdsame ▸ hact⟩))
        · obtain ⟨c, hcm, hcj, d', hd', hdead⟩ := hfails.dead j.id (by rw [hjf, hjq]; decide)
          obtain rfl := h.good.loadable.inj hcm hj hcj
          cases hjd.symm.trans hd'
          have hdd := hdead d hd rfl
          rw [hdsame] at hdd
          cases hst : q.status d.id <;> simp_all [Status.active, Status.dead]
      · exact .inr (.inl hdf)
    · rcases hturns j hj with hjsame | ⟨-, hjc⟩ | ho
      · have hjq' := hjsame.trans hjq
        have hnot : q'.status d.id ≠ .canceled := fun hdc =>
          hfirm'.consistent.cascaded d (hsub hd) hk hdc j (hsub hj) hjd hjq'
        cases hst : q'.status d.id with
        | completed => exact .inl hst
        | failed => exact .inr (.inl hst)
        | canceled => exact absurd hst hnot
        | queued | running => exact .inr (.inr (.inr ⟨hjq', by rw [hst]; rfl⟩))
      · exact .inr (.inr (.inl hjc))
      · exact absurd ho hnone

/-- What a state says about a later one. -/
structure Verdicts (q q' : State I N M F) : Prop where
  /-- A verdict is final. -/
  final : ∀ j ∈ q.jobs, (q.status j.id).final → q'.status j.id = q.status j.id
  /-- A canceled job is not run, -/
  canceled : ∀ j ∈ q.jobs, q.status j.id = .canceled → ∀ r ∈ q'.runners, r.job = j →
    r.stage ≠ .created ∧ r.stage.works = false
  /-- and what waited for a canceled download is canceled and was not started. -/
  dependents : ∀ d ∈ q.jobs, d.kind = .download → ∀ j ∈ q.jobs, j.dependsOn = some d.id →
    q.status j.id = .queued → q'.status d.id = .canceled →
    q'.status j.id = .canceled ∧ ∀ r ∈ q'.runners, r.job ≠ j
  /-- One active job for a model and a node. -/
  single : ∀ a ∈ q'.jobs, ∀ b ∈ q'.jobs, (q'.status a.id).active →
    (q'.status b.id).active → a.model = b.model → a.target = b.target → a = b

omit [DecidableEq I] in
theorem firm_init {enabled : Bool} {jobs : List (Job I N M F)} {status : I → Status}
    {tombstones : List I} (h : Consistent jobs status) :
    (init enabled jobs status tombstones : State I N M F).Firm :=
  ⟨good_init h.loadable, h, fun k r hr => by simp [init] at hr, fun r ns hr => by cases hr⟩

/-- **Verdicts are final**, over the runs that meet `Careful`. -/
theorem verdicts_final {enabled : Bool} {jobs : List (Job I N M F)} {status : I → Status}
    {tombstones : List I} (hload : Consistent jobs status) {q q' : State I N M F}
    (h : Reach step Careful (init enabled jobs status tombstones) q)
    (h' : Reach step Careful q q') : Verdicts q q' := by
  have hfirm : q.Firm := h.invariant (P := Firm) (firm_init hload)
    fun _ _ _ hq hc hs => (firm_step hq hc hs).1
  have hfirm' : q'.Firm := h'.invariant (P := Firm) hfirm
    fun _ _ _ hq hc hs => (firm_step hq hc hs).1
  have hfinal : ∀ j ∈ q.jobs, (q.status j.id).final = true →
      q'.status j.id = q.status j.id := by
    intro j hj hf
    refine (h'.invariant (P := fun s => s.Firm ∧ j ∈ s.jobs ∧ s.status j.id = q.status j.id)
      ⟨hfirm, hj, rfl⟩ fun a e b ha hc hs => ?_).2.2
    obtain ⟨hfa, hja, hsa⟩ := ha
    exact ⟨(firm_step hfa hc hs).1, (jobs_step hs).subset hja,
      (final_step hfa hc hs hja (hsa ▸ hf)).trans hsa⟩
  refine ⟨hfinal, fun j hj hjc r hr hrj => ?_, fun d hd hk j hj hjd hjq hdc => ?_,
    hfirm'.consistent.single⟩
  · have hc : q'.status r.job.id = .canceled := by
      rw [hrj, hfinal j hj (by rw [hjc]; rfl), hjc]
    obtain ⟨k, hkr⟩ := List.mem_iff_getElem?.mp hr
    refine ⟨fun hs => ?_, Bool.eq_false_iff.mpr fun hs => ?_⟩
    · exact Status.noConfusion ((hfirm'.fresh k r hkr hs).symm.trans hc)
    · exact Status.noConfusion ((hfirm'.good.works k r hkr hs).symm.trans hc)
  · have hstart : Follows j d q := by
      cases hst : q.status d.id with
      | completed => exact .inl hst
      | failed => exact .inr (.inl hst)
      | canceled => exact absurd hjq (hfirm.consistent.cascaded d hd hk hst j hj hjd)
      | queued | running => exact .inr (.inr (.inr ⟨hjq, by rw [hst]; rfl⟩))
    have hend : Follows j d q' := by
      refine (h'.invariant (P := fun s => s.Firm ∧ j ∈ s.jobs ∧ d ∈ s.jobs ∧ Follows j d s)
        ⟨hfirm, hj, hd, hstart⟩ fun a e b ha hc hs => ?_).2.2.2
      obtain ⟨hfa, hja, hda, hfol⟩ := ha
      have hsub := (jobs_step hs).subset
      exact ⟨(firm_step hfa hc hs).1, hsub hja, hsub hda, follows_step hfa hc hs hja hda hk hjd hfol⟩
    constructor
    · rcases hend with hx | hx | hx | ⟨-, hx⟩
      · exact Status.noConfusion (hx.symm.trans hdc)
      · exact Status.noConfusion (hx.symm.trans hdc)
      · exact hx
      · rw [hdc] at hx
        cases hx
    · rintro r hr rfl
      obtain ⟨k, hkr⟩ := List.mem_iff_getElem?.mp hr
      obtain ⟨-, -, -, hcomp⟩ := hfirm'.good.met k r hkr d.id hjd
      exact Status.noConfusion (hcomp.symm.trans hdc)

/-- A download that two transfers wait for: one of them is canceled by itself. -/
def queuedRun : List (Label ℕ ℕ ℕ ℕ) :=
  [.queue (.download 7 (String.ofList (List.replicate 40 'a')) none 1 [] [2, 3] none none true),
    .check, .commit [10, 11, 12], .cancel 11, .pass]

/-- The download is stopped while it is written, and queued again. -/
def stoppedRun : List (Label ℕ ℕ ℕ ℕ) :=
  [.run 0 .begin, .run 0 .dispatch, .cancel 10, .run 0 .stopWriter, .run 0 .cancel,
    .queue (.download 7 (String.ofList (List.replicate 40 'a')) none 1 [] [] none none true), .check,
    .commit [13], .pass, .cancel 11, .run 1 .begin]

theorem verdicts_final_stopped :
    ∃ q q' : State ℕ ℕ ℕ ℕ,
      Reach step Careful (init true [] (fun _ => .failed) []) q ∧ Reach step Careful q q' ∧
      q.status 12 = .queued ∧ q'.status 10 = .canceled ∧ q'.status 13 = .running ∧
      Verdicts q q' := by
  have hload : Consistent ([] : List (Job ℕ ℕ ℕ ℕ)) (fun _ => .failed) :=
    ⟨⟨by simp, by simp, by simp⟩, by simp, by simp⟩
  have hrun : (replay step Careful (init true [] (fun _ => .failed) [] : State ℕ ℕ ℕ ℕ)
      queuedRun).any (fun q => decide (q.status 12 = .queued) &&
        (replay step Careful q stoppedRun).any fun q' =>
          decide (q'.status 10 = .canceled ∧ q'.status 13 = .running)) = true := by
    decide +kernel
  obtain ⟨q, hr, hq⟩ := reach_any hrun
  obtain ⟨hq12, hrun'⟩ := (Bool.and_eq_true ..).mp hq
  obtain ⟨q', hr', hq'⟩ := reach_any hrun'
  obtain ⟨h10, h13⟩ := of_decide_eq_true hq'
  exact ⟨q, q', hr, hr', of_decide_eq_true hq12, h10, h13, verdicts_final hload hr hr'⟩

/-- The cancel comes after the pass that makes the runner, and before the runner's first step. -/
def revivedRun : List (Label ℕ ℕ ℕ ℕ) :=
  [.queue (.transfer 7 0 [1] none none false), .check, .commit [10], .pass, .cancel 10]

/-- A canceled job is run. -/
theorem verdicts_revived :
    ∃ q q' : State ℕ ℕ ℕ ℕ,
      Reach step Free (init true [] (fun _ => .failed) []) q ∧ Reach step Free q q' ∧
      ¬Verdicts q q' := by
  have hrun : (replay step Free (init true [] (fun _ => .failed) [] : State ℕ ℕ ℕ ℕ)
      revivedRun).any (fun q => decide (q.status 10 = .canceled) &&
        q.jobs.any (fun j => decide (j.id = 10)) &&
        (replay step Free q [.run 0 .begin]).any fun q' => decide (q'.status 10 = .running)) =
      true := by
    decide +kernel
  obtain ⟨q, hr, hq⟩ := reach_any hrun
  obtain ⟨hq, hrun'⟩ := (Bool.and_eq_true ..).mp hq
  obtain ⟨h10, hmem⟩ := (Bool.and_eq_true ..).mp hq
  obtain ⟨q', hr', hq'⟩ := reach_any hrun'
  obtain ⟨j, hj, hid⟩ := List.any_eq_true.mp hmem
  refine ⟨q, q', hr, hr', fun hv => ?_⟩
  have hc := of_decide_eq_true h10
  rw [← of_decide_eq_true hid] at hc
  have hsame := hv.final j hj (by rw [hc]; rfl)
  rw [hc, of_decide_eq_true hid] at hsame
  exact Status.noConfusion (hsame.symm.trans (of_decide_eq_true hq'))

end State

end SparkDeck.Vnas.Queue
