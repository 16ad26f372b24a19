import SparkDeck.Vnas.Queue

/-!
# Cascades and the choice of the next job

What `cascade` and `nextQueueJob` do to the statuses, and that the recursion of the one and the scan of
the other are complete.

* `cascade_closed`: after a cascade no queued job depends on a job that it canceled.
* `nextQueueJob_some`, `nextQueueJob_none`: the job that is found, and why there is none.
-/

namespace SparkDeck.Vnas.Queue

open Function

variable {I N M F : Type*}

/-! ## Statuses that only leave `queued` -/

/-- Some queued jobs have become `s`. -/
def Leaves (s : Status) (st st' : I → Status) : Prop :=
  ∀ x, st' x = st x ∨ st x = .queued ∧ st' x = s

namespace Leaves

variable {s : Status} {st st' st'' : I → Status}

theorem refl : Leaves s st st := fun _ => .inl rfl

theorem trans (h : Leaves s st st') (h' : Leaves s st' st'') : Leaves s st st'' := by
  intro x
  rcases h' x with hx' | ⟨hq, hs⟩
  · rcases h x with hx | ⟨hq, hs⟩
    · exact .inl (hx'.trans hx)
    · exact .inr ⟨hq, hx'.trans hs⟩
  · rcases h x with hx | ⟨hq', hs'⟩
    · exact .inr ⟨hx ▸ hq, hs⟩
    · exact .inr ⟨hq', hs⟩

variable {x : I}

theorem queued (h : Leaves s st st') (hs : s ≠ .queued) (hx : st' x = .queued) :
    st x = .queued := by
  rcases h x with he | ⟨-, he⟩
  · rw [← he, hx]
  · exact absurd (he.symm.trans hx) hs

theorem keep (h : Leaves s st st') (hx : st x ≠ .queued) : st' x = st x :=
  (h x).resolve_right fun hq => hx hq.1

theorem completed (h : Leaves s st st') (hx : st x = .completed) : st' x = .completed := by
  rw [h.keep, hx]
  simp [hx]

theorem update [DecidableEq I] (hx : st x = .queued) : Leaves s st (update st x s) := by
  intro y
  rw [update_apply]
  split
  case isTrue he => exact .inr ⟨he ▸ hx, rfl⟩
  case isFalse => exact .inl rfl

end Leaves

/-- The queued jobs of a list. -/
def queuedJobs (jobs : List (Job I N M F)) (st : I → Status) : List (Job I N M F) :=
  jobs.filter fun d => st d.id = .queued

theorem Leaves.queuedJobs_le {jobs : List (Job I N M F)} {s : Status} {st st' : I → Status}
    (h : Leaves s st st') (hs : s ≠ .queued) :
    (queuedJobs jobs st').length ≤ (queuedJobs jobs st).length := by
  refine (List.monotone_filter_right jobs fun d hd => ?_).length_le
  exact decide_eq_true (h.queued hs (of_decide_eq_true hd))

/-! ## Dependencies -/

/-- The job depends on none, or on one that is completed. -/
def Met (jobs : List (Job I N M F)) (st : I → Status) (c : Job I N M F) : Prop :=
  ∀ d, c.dependsOn = some d → ∃ p ∈ jobs, p.id = d ∧ st d = .completed

/-- The job's dependency has failed, was canceled or is missing. -/
def Dead (jobs : List (Job I N M F)) (st : I → Status) (c : Job I N M F) : Prop :=
  ∃ d, c.dependsOn = some d ∧ ∀ p ∈ jobs, p.id = d → (st d).dead

/-- The job's dependency is not final. -/
def Waits (jobs : List (Job I N M F)) (st : I → Status) (c : Job I N M F) : Prop :=
  ∃ d, c.dependsOn = some d ∧ ∃ p ∈ jobs, p.id = d ∧ (st d).active

section

variable {jobs : List (Job I N M F)} {st : I → Status} {c : Job I N M F}

theorem Met.congr {st' : I → Status} (h : Met jobs st c)
    (hst : ∀ x, st x = .completed → st' x = .completed) : Met jobs st' c := by
  intro d hd
  obtain ⟨p, hp, hpd, hs⟩ := h d hd
  exact ⟨p, hp, hpd, hst d hs⟩

theorem Dead.congr {st' : I → Status} (h : Dead jobs st c)
    (hst : ∀ x, (st x).dead → (st' x).dead) : Dead jobs st' c := by
  obtain ⟨d, hd, hdead⟩ := h
  exact ⟨d, hd, fun p hp hpd => hst d (hdead p hp hpd)⟩

theorem Met.not_dead (h : Met jobs st c) : ¬Dead jobs st c := by
  rintro ⟨d, hd, hdead⟩
  obtain ⟨p, hp, hpd, hs⟩ := h d hd
  have hdead := hdead p hp hpd
  rw [hs] at hdead
  cases hdead

/-- A job fails that waits for a dead one: what a scan may do to the statuses. -/
structure Fails (jobs : List (Job I N M F)) (st st' : I → Status) : Prop where
  leaves : Leaves .failed st st'
  dead : ∀ x, st' x ≠ st x → ∃ c ∈ jobs, c.id = x ∧ Dead jobs st' c

theorem Leaves.dead {st' : I → Status} (h : Leaves .failed st st') {x : I}
    (hx : (st x).dead) : (st' x).dead := by
  rw [h.keep, hx]
  rintro he
  rw [he] at hx
  cases hx

theorem Fails.refl : Fails jobs st st := ⟨.refl, fun _ hx => absurd rfl hx⟩

theorem Fails.trans {st' st'' : I → Status} (h : Fails jobs st st') (h' : Fails jobs st' st'') :
    Fails jobs st st'' := by
  refine ⟨h.leaves.trans h'.leaves, fun x hx => ?_⟩
  by_cases he : st' x = st x
  · exact h'.dead x (he ▸ hx)
  · obtain ⟨c, hc, hcx, hdead⟩ := h.dead x he
    exact ⟨c, hc, hcx, hdead.congr fun _ => h'.leaves.dead⟩

end

variable [DecidableEq I]

theorem queuedJobs_update_lt {jobs : List (Job I N M F)} {s : Status} {st : I → Status}
    {d : Job I N M F} (hd : d ∈ jobs) (hq : st d.id = .queued) (hs : s ≠ .queued) :
    (queuedJobs jobs (update st d.id s)).length < (queuedJobs jobs st).length := by
  have hsub : (queuedJobs jobs (update st d.id s)).Sublist (queuedJobs jobs st) :=
    List.monotone_filter_right jobs fun e he => by
      exact decide_eq_true (((Leaves.update hq).queued hs) (of_decide_eq_true he))
  refine Nat.lt_of_le_of_ne hsub.length_le fun he => ?_
  have hmem : d ∈ queuedJobs jobs (update st d.id s) := by
    rw [hsub.eq_of_length he]
    exact List.mem_filter.mpr ⟨hd, decide_eq_true hq⟩
  have hupd := of_decide_eq_true (List.mem_filter.mp hmem).2
  rw [update_self] at hupd
  exact hs hupd

/-! ## Cascades -/

theorem cascade_leaves (jobs : List (Job I N M F)) (n : ℕ) (i : I) (st : I → Status) :
    Leaves .canceled st (cascade jobs n i st) := by
  induction n generalizing i st with
  | zero => exact .refl
  | succ n ih =>
    suffices h : ∀ (l : List (Job I N M F)) (st : I → Status), Leaves .canceled st (l.foldl (fun st d =>
        if d.dependsOn = some i ∧ st d.id = .queued then
          cascade jobs n d.id (update st d.id .canceled)
        else st) st) from h jobs st
    intro l
    induction l with
    | nil => exact fun _ => .refl
    | cons d rest ihl =>
      intro st
      rw [List.foldl_cons]
      by_cases hc : d.dependsOn = some i ∧ st d.id = .queued
      · rw [if_pos hc]
        exact ((Leaves.update hc.2).trans (ih d.id _)).trans (ihl _)
      · rw [if_neg hc]
        exact ihl st

/-- Only jobs that depend on the job, or on a queued one, are canceled. -/
theorem cascade_traced (jobs : List (Job I N M F)) (n : ℕ) (i : I) (st : I → Status) {x : I}
    (hx : cascade jobs n i st x ≠ st x) :
    ∃ d ∈ jobs, d.id = x ∧ ∃ p, d.dependsOn = some p ∧ (p = i ∨ st p = .queued) := by
  induction n generalizing i st x with
  | zero => exact absurd rfl hx
  | succ n ih =>
    suffices h : ∀ (l : List (Job I N M F)) (st : I → Status), (∀ d ∈ l, d ∈ jobs) →
        l.foldl (fun st d =>
          if d.dependsOn = some i ∧ st d.id = .queued then
            cascade jobs n d.id (update st d.id .canceled)
          else st) st x ≠ st x →
        ∃ d ∈ jobs, d.id = x ∧ ∃ p, d.dependsOn = some p ∧ (p = i ∨ st p = .queued) from
      h jobs st (fun _ => id) hx
    intro l
    induction l with
    | nil => exact fun _ _ hne => absurd rfl hne
    | cons d rest ihl =>
      intro st hsub hne
      rw [List.foldl_cons] at hne
      by_cases hc : d.dependsOn = some i ∧ st d.id = .queued
      · rw [if_pos hc] at hne
        have hupd : Leaves .canceled st (update st d.id .canceled) := .update hc.2
        have hleave := hupd.trans (cascade_leaves jobs n d.id _)
        by_cases hrest : cascade jobs n d.id (update st d.id .canceled) x = st x
        · obtain ⟨e, he, hex, p, hp, hpi⟩ :=
            ihl _ (fun e he => hsub e (List.mem_cons_of_mem d he))
              fun he => hne (he.trans hrest)
          exact ⟨e, he, hex, p, hp, hpi.imp_right (hleave.queued (by decide))⟩
        · by_cases hxd : d.id = x
          · exact ⟨d, hsub d List.mem_cons_self, hxd, i, hc.1, .inl rfl⟩
          · have hin : cascade jobs n d.id (update st d.id .canceled) x ≠
                update st d.id .canceled x := by
              rwa [update_of_ne (Ne.symm hxd)]
            obtain ⟨e, he, hex, p, hp, hpi⟩ := ih d.id _ hin
            refine ⟨e, he, hex, p, hp, .inr ?_⟩
            rcases hpi with rfl | hq
            · exact hc.2
            · exact hupd.queued (by decide) hq
      · rw [if_neg hc] at hne
        exact ihl st (fun e he => hsub e (List.mem_cons_of_mem d he)) hne

/-- No queued job is left that depends on the job, or on one that was canceled with it. -/
theorem cascade_closed (jobs : List (Job I N M F)) (n : ℕ) (i : I) (st : I → Status)
    (hn : (queuedJobs jobs st).length ≤ n) {p : I}
    (hp : p = i ∨ st p = .queued ∧ cascade jobs n i st p = .canceled) {d : Job I N M F}
    (hd : d ∈ jobs) (hdp : d.dependsOn = some p) : cascade jobs n i st d.id ≠ .queued := by
  induction n generalizing i st p d with
  | zero =>
    intro hq
    have hmem : d ∈ queuedJobs jobs st := List.mem_filter.mpr ⟨hd, decide_eq_true hq⟩
    rw [List.eq_nil_of_length_eq_zero (Nat.le_zero.mp hn)] at hmem
    cases hmem
  | succ n ih =>
    suffices h : ∀ (l : List (Job I N M F)) (st st' : I → Status), (∀ d ∈ l, d ∈ jobs) →
        (queuedJobs jobs st).length ≤ n + 1 →
        l.foldl (fun st d =>
          if d.dependsOn = some i ∧ st d.id = .queued then
            cascade jobs n d.id (update st d.id .canceled)
          else st) st = st' →
        Leaves .canceled st st' ∧
        (∀ p, st p = .queued → st' p = .canceled → ∀ d ∈ jobs, d.dependsOn = some p →
          st' d.id ≠ .queued) ∧
        ∀ d ∈ l, d.dependsOn = some i → st' d.id ≠ .queued by
      obtain ⟨-, hmore, hown⟩ := h jobs st _ (fun _ => id) hn rfl
      rcases hp with rfl | ⟨hq, hc⟩
      · exact hown d hd hdp
      · exact hmore p hq hc d hd hdp
    intro l
    induction l with
    | nil =>
      rintro st st' - - rfl
      exact ⟨.refl, fun p hq hc => (Status.noConfusion (hq.symm.trans hc)), fun d hd => by cases hd⟩
    | cons e rest ihl =>
      intro st st' hsub hle hst'
      rw [List.foldl_cons] at hst'
      have hrest : ∀ d ∈ rest, d ∈ jobs := fun d hd => hsub d (List.mem_cons_of_mem e hd)
      by_cases hc : e.dependsOn = some i ∧ st e.id = .queued
      · rw [if_pos hc] at hst'
        have hupd : Leaves .canceled st (update st e.id .canceled) := .update hc.2
        have hlt := queuedJobs_update_lt (s := .canceled) (hsub e List.mem_cons_self) hc.2
          (by decide)
        have hin := cascade_leaves jobs n e.id (update st e.id .canceled)
        have hfirst := hupd.trans hin
        obtain ⟨hleave, hmore, hown⟩ := ihl _ st' hrest
          (Nat.le_trans (hfirst.queuedJobs_le (by decide)) hle) hst'
        refine ⟨hfirst.trans hleave, fun p hq hcan d hd hdp => ?_, fun d hd hdi => ?_⟩
        · by_cases hnow : cascade jobs n e.id (update st e.id .canceled) p = .queued
          · exact hmore p hnow hcan d hd hdp
          · -- it was canceled by the inner call
            have hpe : p = e.id ∨ update st e.id .canceled p = .queued ∧
                cascade jobs n e.id (update st e.id .canceled) p = .canceled := by
              by_cases hpe : p = e.id
              · exact .inl hpe
              · have hpq : update st e.id .canceled p = .queued := by
                  rw [update_of_ne hpe, hq]
                exact .inr ⟨hpq, ((hin p).resolve_left fun he => hnow (he.trans hpq)).2⟩
            intro hdq
            exact ih e.id _ (by omega) hpe hd hdp (hleave.queued (by decide) hdq)
        · rcases List.mem_cons.mp hd with rfl | hd
          · intro hdq
            have hcan : cascade jobs n d.id (update st d.id .canceled) d.id = .canceled := by
              rw [hin.keep] <;> simp
            have hdq' := hleave.queued (by decide) hdq
            cases hcan.symm.trans hdq'
          · exact hown d hd hdi
      · rw [if_neg hc] at hst'
        obtain ⟨hleave, hmore, hown⟩ := ihl st st' hrest hle hst'
        refine ⟨hleave, hmore, fun d hd hdi => ?_⟩
        rcases List.mem_cons.mp hd with rfl | hd
        · exact fun hdq => hc ⟨hdi, hleave.queued (by decide) hdq⟩
        · exact hown d hd hdi

/-! ## The state of a dependency -/

variable {jobs : List (Job I N M F)} {st : I → Status} {c : Job I N M F}

theorem find_id {d : I} {p : Job I N M F} (h : jobs.find? (fun p => p.id = d) = some p) :
    p ∈ jobs ∧ p.id = d :=
  ⟨List.mem_of_find?_eq_some h, by simpa using List.find?_some h⟩

theorem find_id_none {d : I} (h : jobs.find? (fun p => p.id = d) = none) : ∀ p ∈ jobs, p.id ≠ d :=
  fun p hp hpd => (List.find?_eq_none.mp h) p hp (decide_eq_true hpd)

theorem need_cases (jobs : List (Job I N M F)) (st : I → Status) (c : Job I N M F) :
    need jobs st c = .met ∧ Met jobs st c ∨ need jobs st c = .dead ∧ Dead jobs st c ∨
      need jobs st c = .pending ∧ Waits jobs st c := by
  unfold need
  cases hd : c.dependsOn with
  | none => exact .inl ⟨rfl, fun d hd' => by simp [hd] at hd'⟩
  | some d =>
    dsimp only
    cases hf : jobs.find? fun p => p.id = d with
    | none =>
      exact .inr (.inl ⟨rfl, d, hd, fun p hp hpd => absurd hpd (find_id_none hf p hp)⟩)
    | some p =>
      obtain ⟨hp, rfl⟩ := find_id hf
      dsimp only
      cases hs : st p.id with
      | completed =>
        refine .inl ⟨rfl, fun d hd' => ?_⟩
        cases hd.symm.trans hd'
        exact ⟨p, hp, rfl, hs⟩
      | failed | canceled => exact .inr (.inl ⟨rfl, p.id, hd, fun _ _ _ => by rw [hs]; rfl⟩)
      | queued | running => exact .inr (.inr ⟨rfl, p.id, hd, p, hp, rfl, by rw [hs]; rfl⟩)

theorem Fails.update (hc : c ∈ jobs) (hq : st c.id = .queued) (hdead : Dead jobs st c) :
    Fails jobs st (update st c.id .failed) := by
  refine ⟨.update hq, fun x hx => ⟨c, hc, ?_, hdead.congr fun _ => (Leaves.update hq).dead⟩⟩
  by_contra hne
  exact hx (update_of_ne (Ne.symm hne) ..)

/-! ## The next job -/

variable [DecidableEq N] {busy : List N}

/-- What a scan finds, and what it does on the way. -/
theorem nextQueueJob_spec (busy : List N) (l : List (Job I N M F)) (hl : ∀ c ∈ l, c ∈ jobs)
    (st : I → Status) :
    Fails jobs st (nextQueueJob jobs busy l st).1 ∧
    (∀ x, (∀ c ∈ l, c.id ≠ x) → (nextQueueJob jobs busy l st).1 x = st x) ∧
    ∀ c, (nextQueueJob jobs busy l st).2 = some c → c ∈ l ∧
      (nextQueueJob jobs busy l st).1 c.id = .queued ∧
      Met jobs (nextQueueJob jobs busy l st).1 c ∧ ∀ n ∈ c.endpoints, n ∉ busy := by
  induction l generalizing st with
  | nil => exact ⟨.refl, fun _ _ => rfl, fun c hc => by cases hc⟩
  | cons c rest ih =>
    have hrest : ∀ d ∈ rest, d ∈ jobs := fun d hd => hl d (List.mem_cons_of_mem c hd)
    have hskip : ∀ st, Fails jobs st (nextQueueJob jobs busy rest st).1 ∧
        (∀ x, (∀ d ∈ c :: rest, d.id ≠ x) → (nextQueueJob jobs busy rest st).1 x = st x) ∧
        ∀ d, (nextQueueJob jobs busy rest st).2 = some d → d ∈ c :: rest ∧
          (nextQueueJob jobs busy rest st).1 d.id = .queued ∧
          Met jobs (nextQueueJob jobs busy rest st).1 d ∧ ∀ n ∈ d.endpoints, n ∉ busy := by
      intro st
      obtain ⟨hfails, hkeep, hfound⟩ := ih hrest st
      refine ⟨hfails, fun x hx => hkeep x fun d hd => hx d (List.mem_cons_of_mem c hd),
        fun d hd => ?_⟩
      obtain ⟨hmem, hd⟩ := hfound d hd
      exact ⟨List.mem_cons_of_mem c hmem, hd⟩
    unfold nextQueueJob
    by_cases hq : st c.id = .queued
    · rw [if_pos hq]
      rcases need_cases jobs st c with ⟨hneed, hmet⟩ | ⟨hneed, hdead⟩ | ⟨hneed, -⟩
      · rw [hneed]
        by_cases hbusy : c.endpoints.any (· ∈ busy)
        · rw [if_pos hbusy]
          exact hskip st
        · rw [if_neg hbusy]
          refine ⟨.refl, fun _ _ => rfl, fun d hd => ?_⟩
          cases hd
          refine ⟨List.mem_cons_self, hq, hmet, fun n hn hnb => hbusy ?_⟩
          exact List.any_eq_true.mpr ⟨n, hn, decide_eq_true hnb⟩
      · rw [hneed]
        obtain ⟨hfails, hkeep, hfound⟩ := hskip (update st c.id .failed)
        refine ⟨(Fails.update (hl c List.mem_cons_self) hq hdead).trans hfails, fun x hx => ?_,
          hfound⟩
        rw [hkeep x hx, update_of_ne]
        exact (hx c List.mem_cons_self).symm
      · rw [hneed]
        exact hskip st
    · rw [if_neg hq]
      exact hskip st

/-- Why a scan finds none, where no job depends on a later one. -/
theorem nextQueueJob_none (busy : List N) (l : List (Job I N M F)) (hl : ∀ c ∈ l, c ∈ jobs)
    (horder : l.Pairwise fun a b => a.dependsOn ≠ some b.id)
    (hself : ∀ a ∈ l, a.dependsOn ≠ some a.id) (st : I → Status)
    (hnone : (nextQueueJob jobs busy l st).2 = none) (hc : c ∈ l)
    (hq : (nextQueueJob jobs busy l st).1 c.id = .queued) :
    Waits jobs (nextQueueJob jobs busy l st).1 c ∨
      Met jobs (nextQueueJob jobs busy l st).1 c ∧ ∃ n ∈ c.endpoints, n ∈ busy := by
  induction l generalizing st with
  | nil => cases hc
  | cons e rest ih =>
    have hrest : ∀ d ∈ rest, d ∈ jobs := fun d hd => hl d (List.mem_cons_of_mem e hd)
    obtain ⟨hlater, horder⟩ := List.pairwise_cons.mp horder
    have hskip : ∀ st, (nextQueueJob jobs busy rest st).2 = none → c ∈ rest →
        (nextQueueJob jobs busy rest st).1 c.id = .queued →
        Waits jobs (nextQueueJob jobs busy rest st).1 c ∨
          Met jobs (nextQueueJob jobs busy rest st).1 c ∧ ∃ n ∈ c.endpoints, n ∈ busy :=
      fun st hnone hc hq =>
        ih hrest horder (fun a ha => hself a (List.mem_cons_of_mem e ha)) st hnone hc hq
    rcases List.mem_cons.mp hc with rfl | hc
    · unfold nextQueueJob at hnone hq ⊢
      by_cases hnow : st c.id = .queued
      · rw [if_pos hnow] at hnone hq ⊢
        rcases need_cases jobs st c with ⟨hneed, hmet⟩ | ⟨hneed, -⟩ | ⟨hneed, hwaits⟩
        · rw [hneed] at hnone hq ⊢
          dsimp only at hnone hq ⊢
          by_cases hbusy : c.endpoints.any (· ∈ busy)
          · obtain ⟨n, hn, hnb⟩ := List.any_eq_true.mp hbusy
            rw [if_pos hbusy]
            have hleave := (nextQueueJob_spec busy rest hrest st).1.leaves
            exact .inr ⟨hmet.congr fun _ => hleave.completed, n, hn, of_decide_eq_true hnb⟩
          · rw [if_neg hbusy] at hnone
            cases hnone
        · rw [hneed] at hq
          have hleave := (nextQueueJob_spec busy rest hrest
            (update st c.id .failed)).1.leaves
          have hq' := hleave.queued (by decide) hq
          simp at hq'
        · rw [hneed]
          obtain ⟨d, hd, p, hp, hpd, hs⟩ := hwaits
          have hkeep := (nextQueueJob_spec busy rest hrest st).2.1 d
            fun e he hed => hlater e he (hed ▸ hd)
          exact .inl ⟨d, hd, p, hp, hpd, hkeep ▸ hs⟩
      · rw [if_neg hnow] at hq
        have hleave := (nextQueueJob_spec busy rest hrest st).1.leaves
        exact absurd (hleave.queued (by decide) hq) hnow
    · unfold nextQueueJob at hnone hq ⊢
      by_cases hnow : st e.id = .queued
      · rw [if_pos hnow] at hnone hq ⊢
        rcases need_cases jobs st e with ⟨hneed, -⟩ | ⟨hneed, -⟩ | ⟨hneed, -⟩
        · rw [hneed] at hnone hq ⊢
          dsimp only at hnone hq ⊢
          by_cases hbusy : e.endpoints.any (· ∈ busy)
          · rw [if_pos hbusy] at hnone hq ⊢
            exact hskip st hnone hc hq
          · rw [if_neg hbusy] at hnone
            cases hnone
        · rw [hneed] at hnone hq ⊢
          exact hskip _ hnone hc hq
        · rw [hneed] at hnone hq ⊢
          exact hskip st hnone hc hq
      · rw [if_neg hnow] at hnone hq ⊢
        exact hskip st hnone hc hq

end SparkDeck.Vnas.Queue
