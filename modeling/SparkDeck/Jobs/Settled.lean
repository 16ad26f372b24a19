import SparkDeck.Lib.Table
import SparkDeck.Lib.Transition
import SparkDeck.Jobs.Queue

/-!
# A job runs once at a time, and a finished job stays finished

`Good` is what holds of each job, `Inv` what every step keeps. `jobs_settled` is the result for runs
that meet `Plain`; `revived` is a run that does not: a job is canceled while the tick probes its
container, and the tick writes over it.
-/

namespace SparkDeck.Jobs

open Transition

variable {maxRetries : ℤ} {s s' : State} {i k : ℕ} {job job' : Job} {q : List ℕ}

/-- What holds of the job at `i`, given the queue. -/
structure Good (maxRetries : ℤ) (q : List ℕ) (i : ℕ) (job : Job) : Prop where
  queued : job.status.isWaiting → i ∈ q
  finished : job.status.isFinished → i ∉ q
  canceled : job.cancel ↔ job.status = .canceled
  counted : job.sent = job.attempts
  bounded : 0 < job.sent → (job.sent : ℤ) ≤ maxRetries + 1
  spare : job.status.isCancelable → 0 < job.sent → (job.sent : ℤ) ≤ maxRetries

/-- What a task has to do with the status of its job. -/
def Matches : TaskPc → Status → Prop
  | .sending, st => st = .running
  | .ended, _ => True
  | _, st => st = .admissionWaiting ∨ st = .canceled

structure Inv (maxRetries : ℤ) (s : State) : Prop where
  nodup : s.queue.Nodup
  known : ∀ i ∈ s.queue, i < s.jobs.length
  good : ∀ (i : ℕ) (job : Job), s.jobs[i]? = some job → Good maxRetries s.queue i job
  tick : ∀ i, s.tick.job = some i → ∃ job, s.jobs[i]? = some job ∧ job.status.isWaiting
  task : ∀ (k : ℕ) (t : Task), s.tasks[k]? = some t → t.active →
    ∃ job, s.jobs[t.job]? = some job ∧ Matches t.pc job.status
  alone : ∀ (k k' : ℕ) (t t' : Task), s.tasks[k]? = some t → s.tasks[k']? = some t' →
    t.active → t'.active → t.job = t'.job → k = k'

theorem Inv.order (h : Inv maxRetries s) : Orderly maxRetries s where
  alone := h.alone
  bounded job hj := by
    obtain ⟨i, hi⟩ := List.mem_iff_getElem?.mp hj
    exact (h.good i job hi).bounded
  queued i job hi := (h.good i job hi).queued
  finished i job hi := (h.good i job hi).finished

theorem inv_init : Inv maxRetries init where
  nodup := List.nodup_nil
  known i hi := absurd hi List.not_mem_nil
  good i job hi := by cases hi
  tick i hi := by cases hi
  task k t hk := by cases hk
  alone k k' t t' hk := by cases hk

/-! ## What lasts -/

theorem Job.Lasts.refl (job : Job) : job.Lasts job :=
  ⟨fun _ => rfl, fun h => h, fun _ => rfl, fun _ => rfl⟩

theorem Job.Lasts.trans {job'' : Job} (h : job.Lasts job') (h' : job'.Lasts job'') :
    job.Lasts job'' where
  status hf := by
    have hst := h.status hf
    rw [← hst] at hf
    exact (h'.status hf).trans hst
  cancel hc := h'.cancel (h.cancel hc)
  sent hc := (h'.sent (h.cancel hc)).trans (h.sent hc)
  starts hc := (h'.starts (h.cancel hc)).trans (h.starts hc)

theorem Lasting.refl (s : State) : Lasting s s := fun _ job hi => ⟨job, hi, Job.Lasts.refl job⟩

theorem Lasting.trans {s'' : State} (h : Lasting s s') (h' : Lasting s' s'') : Lasting s s'' := by
  intro i job hi
  obtain ⟨job', hi', hl⟩ := h i job hi
  obtain ⟨job'', hi'', hl'⟩ := h' i job' hi'
  exact ⟨job'', hi'', hl.trans hl'⟩

theorem Lasting.of_jobs (h : s'.jobs = s.jobs) : Lasting s s' := by
  intro i job hi
  exact ⟨job, h ▸ hi, Job.Lasts.refl job⟩

theorem Lasting.of_set (hi : s.jobs[i]? = some job) (h : s'.jobs = s.jobs.set i job')
    (hl : job.Lasts job') : Lasting s s' := by
  intro j other hj
  rw [h]
  by_cases hji : j = i
  · subst hji
    cases hi.symm.trans hj
    exact ⟨job', Table.get_set_self hj, hl⟩
  · exact ⟨other, Table.get_set_ne hj hji, Job.Lasts.refl other⟩

/-- A job that is not finished may become anything. -/
theorem Job.Lasts.of_not_finished (hg : Good maxRetries q i job)
    (hf : job.status.isFinished = false) : job.Lasts job' := by
  have hc : job.cancel ≠ true := by
    intro hc
    rw [hg.canceled.mp hc] at hf
    cases hf
  refine ⟨fun h => ?_, fun h => absurd h hc, fun h => absurd h hc, fun h => absurd h hc⟩
  rw [hf] at h
  cases h

theorem not_finished_of_waiting {st : Status} (h : st.isWaiting = true) : st.isFinished = false := by
  cases st <;> first | rfl | cases h

theorem not_finished_of_cancelable {st : Status} (h : st.isCancelable) :
    st.isFinished = false := by
  cases st <;> first | rfl | cases h

/-! ## One job changes -/

/-- The job at `i` and the queue's entry for it change, and what tasks there were go on. -/
theorem Inv.update (h : Inv maxRetries s) (hi : s.jobs[i]? = some job)
    (hjobs : s'.jobs = s.jobs.set i job') (hgood : Good maxRetries s'.queue i job')
    (hq : ∀ j, j ≠ i → (j ∈ s'.queue ↔ j ∈ s.queue)) (hnodup : s'.queue.Nodup)
    (htick : ∀ j, s'.tick.job = some j →
      s.tick.job = some j ∧ (j = i → job'.status.isWaiting))
    (htask : ∀ (k : ℕ) (t : Task), s'.tasks[k]? = some t → t.active →
      ∃ t0, s.tasks[k]? = some t0 ∧ t0.active ∧ t0.job = t.job ∧
        (t.job = i → Matches t.pc job'.status) ∧ (t.job ≠ i → t0 = t)) :
    Inv maxRetries s' where
  nodup := hnodup
  known j hj := by
    rw [hjobs, List.length_set]
    by_cases hji : j = i
    · rw [hji]
      exact (List.getElem?_eq_some_iff.mp hi).1
    · exact h.known j ((hq j hji).mp hj)
  good j other hj := by
    rw [hjobs] at hj
    rcases Table.set_cases hj with ⟨rfl, rfl⟩ | ⟨hji, hj⟩
    · exact hgood
    · have hold := h.good j other hj
      exact
        { hold with
          queued := fun hw => (hq j hji).mpr (hold.queued hw)
          finished := fun hf hm => hold.finished hf ((hq j hji).mp hm) }
  tick j hj := by
    obtain ⟨hold, hnew⟩ := htick j hj
    obtain ⟨other, hother, hw⟩ := h.tick j hold
    rw [hjobs]
    by_cases hji : j = i
    · subst hji
      exact ⟨job', Table.get_set_self hi, hnew rfl⟩
    · exact ⟨other, Table.get_set_ne hother hji, hw⟩
  task k t hk ha := by
    obtain ⟨t0, hk0, ha0, hjob, hself, hother⟩ := htask k t hk ha
    rw [hjobs]
    by_cases hji : t.job = i
    · rw [hji]
      exact ⟨job', Table.get_set_self hi, hself hji⟩
    · obtain rfl := hother hji
      obtain ⟨other, hget, hm⟩ := h.task k t0 hk0 ha0
      exact ⟨other, Table.get_set_ne hget hji, hm⟩
  alone k k' t t' hk hk' ha ha' hjob := by
    obtain ⟨t0, hk0, ha0, hj0, -, -⟩ := htask k t hk ha
    obtain ⟨t1, hk1, ha1, hj1, -, -⟩ := htask k' t' hk' ha'
    exact h.alone k k' t0 t1 hk0 hk1 ha0 ha1 (hj0.trans (hjob.trans hj1.symm))

/-- The job at `i` changes and nothing else does. -/
theorem Inv.put (h : Inv maxRetries s) (hi : s.jobs[i]? = some job)
    (hgood : Good maxRetries s.queue i job')
    (htick : s.tick.job = some i → job'.status.isWaiting)
    (htask : ∀ pc, Matches pc job.status → Matches pc job'.status) :
    Inv maxRetries (s.put i job') := by
  refine h.update hi rfl hgood (fun _ _ => Iff.rfl) h.nodup
    (fun j hj => ⟨hj, fun he => htick (he ▸ hj)⟩) fun k t hk ha => ?_
  refine ⟨t, hk, ha, rfl, fun he => ?_, fun _ => rfl⟩
  obtain ⟨other, hother, hm⟩ := h.task k t hk ha
  rw [he, hi] at hother
  cases hother
  exact htask t.pc hm

/-- The tick goes on. -/
theorem Inv.goOn (h : Inv maxRetries s) {tick : Tick} (ht : tick.job = none) :
    Inv maxRetries { s with tick := tick } :=
  { h with
    tick := fun i hi => by
      rw [show tick.job = some i from hi] at ht
      cases ht }

theorem Inv.submit (h : Inv maxRetries s) (model : String) (container : Option String) :
    Inv maxRetries (s.submit model container) where
  nodup := by
    refine List.nodup_append.mpr ⟨h.nodup, List.pairwise_singleton _ _, fun i hi j hj => ?_⟩
    have hlt := h.known i hi
    have heq := List.mem_singleton.mp hj
    omega
  known i hi := by
    have hlen : (s.submit model container).jobs.length = s.jobs.length + 1 := List.length_append
    rw [hlen]
    rcases List.mem_append.mp hi with hi | hi
    · exact Nat.lt_succ_of_lt (h.known i hi)
    · rw [List.mem_singleton.mp hi]
      exact Nat.lt_succ_self _
  good i job hi := by
    rcases Table.append_cases hi with hi | ⟨rfl, rfl⟩
    · have hold := h.good i job hi
      have hlt := (List.getElem?_eq_some_iff.mp hi).1
      exact
        { hold with
          queued := fun hw => List.mem_append.mpr (Or.inl (hold.queued hw))
          finished := fun hf hm => by
            rcases List.mem_append.mp hm with hm | hm
            · exact hold.finished hf hm
            · have heq := List.mem_singleton.mp hm
              omega }
    · exact
        { queued := fun _ => List.mem_append.mpr (Or.inr (List.mem_singleton.mpr rfl))
          finished := nofun
          canceled := ⟨fun hc => absurd hc Bool.false_ne_true, nofun⟩
          counted := rfl
          bounded := fun h0 => absurd h0 (Nat.lt_irrefl 0)
          spare := fun _ h0 => absurd h0 (Nat.lt_irrefl 0) }
  tick i hi := by
    obtain ⟨job, hjob, hw⟩ := h.tick i hi
    exact ⟨job, Table.get_append hjob, hw⟩
  task k t hk ha := by
    obtain ⟨job, hjob, hm⟩ := h.task k t hk ha
    exact ⟨job, Table.get_append hjob, hm⟩
  alone := h.alone

theorem Inv.cancel (h : Inv maxRetries s) (hplain : s.tick.job ≠ some i) :
    Inv maxRetries (s.cancel i) ∧ Lasting s (s.cancel i) := by
  unfold State.cancel
  split
  case h_2 => exact ⟨h, Lasting.refl s⟩
  case h_1 job hi =>
    split
    case isFalse => exact ⟨h, Lasting.refl s⟩
    case isTrue hc =>
      rw [Bool.and_eq_true] at hc
      have hgood := h.good i job hi
      have hnot : i ∉ s.queue.erase i := fun hm => h.nodup.not_mem_erase hm
      refine ⟨h.update hi rfl ?_ (fun j hj => List.mem_erase_of_ne hj) (h.nodup.erase i)
        (fun j hj => ⟨hj, fun he => absurd (he ▸ hj) hplain⟩) fun k t hk ha => ?_,
        Lasting.of_set hi rfl (Job.Lasts.of_not_finished hgood
          (not_finished_of_cancelable hc.2))⟩
      · exact
          { queued := nofun
            finished := fun _ => hnot
            canceled := ⟨fun _ => rfl, fun _ => rfl⟩
            counted := hgood.counted
            bounded := hgood.bounded
            spare := nofun }
      · refine ⟨t, hk, ha, rfl, fun he => ?_, fun _ => rfl⟩
        obtain ⟨other, hother, hm⟩ := h.task k t hk ha
        rw [he, hi] at hother
        cases hother
        have hcan := hc.2
        cases hpc : t.pc with
        | spawned | admitting => exact Or.inr rfl
        | sending =>
          rw [hpc] at hm
          rw [show job.status = .running from hm] at hcan
          cases hcan
        | ended => trivial

/-- The jobs that were cleared are as they were. -/
theorem get_clearFinished {j : ℕ} (hj : s.clearFinished.jobs[j]? = some job') :
    ∃ job, s.jobs[j]? = some job ∧ (job' = job ∨ job' = { job with listed := false }) := by
  rw [State.clearFinished, List.getElem?_map] at hj
  obtain ⟨job, hjob, rfl⟩ := Option.map_eq_some_iff.mp hj
  refine ⟨job, hjob, ?_⟩
  split
  · exact Or.inr rfl
  · exact Or.inl rfl

theorem Good.unlist (h : Good maxRetries q i job) :
    Good maxRetries q i { job with listed := false } := { h with }

theorem Lasting.clearFinished (s : State) : Lasting s s.clearFinished := by
  intro i job hi
  refine ⟨if job.status.isFinished then { job with listed := false } else job, ?_, ?_⟩
  · rw [State.clearFinished, List.getElem?_map, hi]
    rfl
  · split
    · exact { Job.Lasts.refl job with }
    · exact Job.Lasts.refl job

theorem Inv.clearFinished (h : Inv maxRetries s) : Inv maxRetries s.clearFinished where
  nodup := h.nodup
  known i hi := by
    rw [State.clearFinished, List.length_map]
    exact h.known i hi
  good i job hi := by
    obtain ⟨old, hold, rfl | rfl⟩ := get_clearFinished hi
    · exact h.good i job hold
    · exact (h.good i old hold).unlist
  tick i hi := by
    obtain ⟨job, hjob, hw⟩ := h.tick i hi
    refine ⟨job, ?_, hw⟩
    rw [State.clearFinished, List.getElem?_map, hjob, Option.map_some,
      not_finished_of_waiting hw]
    rfl
  task k t hk ha := by
    obtain ⟨job, hjob, hm⟩ := h.task k t hk ha
    obtain ⟨job', hjob', -⟩ := Lasting.clearFinished s t.job job hjob
    obtain ⟨old, hold, heq⟩ := get_clearFinished hjob'
    rw [hjob] at hold
    cases hold
    refine ⟨job', hjob', ?_⟩
    rcases heq with rfl | rfl
    · exact hm
    · exact hm
  alone := h.alone

/-! ## The tick -/

/-- A job that is waiting is not canceled. -/
theorem Good.not_canceled (h : Good maxRetries q i job) (hf : job.status.isFinished = false) :
    job.cancel = false := by
  cases hc : job.cancel with
  | false => rfl
  | true =>
    rw [h.canceled.mp hc] at hf
    cases hf

theorem waiting_cancelable {st : Status} (h : st.isWaiting) : st.isCancelable := by
  cases st <;> first | rfl | cases h

/-- A waiting job goes on. -/
theorem Good.goOn (h : Good maxRetries q i job) (hw : job.status.isWaiting) {st : Status}
    (hst : st = .admissionWaiting ∨ st = .dispatching) :
    Good maxRetries q i { job with status := st } := by
  have hc := h.not_canceled (not_finished_of_waiting hw)
  have hfin : st.isFinished = false := by rcases hst with rfl | rfl <;> rfl
  exact
    { queued := fun _ => h.queued hw
      finished := fun hf => absurd (hfin.symm.trans hf) Bool.false_ne_true
      canceled := by
        refine ⟨fun hcan => ?_, fun hcan => ?_⟩
        · cases hcan.symm.trans hc
        · rw [show st = .canceled from hcan] at hfin
          cases hfin
      counted := h.counted
      bounded := h.bounded
      spare := fun _ => h.spare (waiting_cancelable hw) }

/-- No task is at work for a job that waits. -/
theorem not_matches {pc : TaskPc} {st : Status} (hw : st.isWaiting) (hm : Matches pc st) :
    pc = .ended := by
  cases pc with
  | spawned | admitting => rcases hm with rfl | rfl <;> cases hw
  | sending =>
    obtain rfl : st = .running := hm
    cases hw
  | ended => rfl

theorem Inv.no_task (h : Inv maxRetries s) (hi : s.jobs[i]? = some job)
    (hw : job.status.isWaiting) {t : Task} (hk : s.tasks[k]? = some t)
    (ha : t.active) : t.job ≠ i := by
  intro he
  obtain ⟨other, hother, hm⟩ := h.task k t hk ha
  rw [he, hi] at hother
  cases hother
  rw [Task.active, decide_eq_true_eq] at ha
  exact ha (not_matches hw hm)

theorem Inv.visit (h : Inv maxRetries s) (i : ℕ) (cs : List Container) (ids : List ℕ)
    (fits : Bool) : Inv maxRetries (s.visit i cs ids fits) ∧ Lasting s (s.visit i cs ids fits) := by
  unfold State.visit
  split
  case h_2 => exact ⟨h.goOn rfl, Lasting.of_jobs rfl⟩
  case h_1 job hi =>
    split
    case isFalse => exact ⟨h.goOn rfl, Lasting.of_jobs rfl⟩
    case isTrue hw =>
      rw [Bool.and_eq_true] at hw
      have hat : ∀ (tick : Tick), tick.job = some i → Inv maxRetries { s with tick := tick } := by
        intro tick ht
        refine { h with tick := fun j hj => ?_ }
        rw [show tick.job = some j from hj] at ht
        cases ht
        exact ⟨job, hi, hw.2⟩
      split
      case isTrue => exact ⟨hat _ rfl, Lasting.of_jobs rfl⟩
      case isFalse =>
        split
        case isTrue => exact ⟨hat _ rfl, Lasting.of_jobs rfl⟩
        case isFalse => exact ⟨h.goOn rfl, Lasting.of_jobs rfl⟩

/-- The readiness probe of the job that the tick is at has returned. -/
theorem Inv.probed (h : Inv maxRetries s) (ht : s.tick.job = some i) (hi : s.jobs[i]? = some job)
    (ready : Bool) {tick : Tick} (htick : tick.job = none) :
    Inv maxRetries { s.probed i job ready with tick := tick } ∧
      Lasting s { s.probed i job ready with tick := tick } := by
  obtain ⟨other, hother, hw⟩ := h.tick i ht
  cases hi.symm.trans hother
  have hgood := h.good i job hi
  have hlast : ∀ job', job.Lasts job' := fun _ =>
    Job.Lasts.of_not_finished hgood (not_finished_of_waiting hw)
  cases ready with
  | false =>
    have hput : Inv maxRetries (s.put i { job with status := .dispatching }) := by
      refine h.put hi (hgood.goOn hw (Or.inr rfl)) (fun _ => rfl) fun pc hm => ?_
      rw [not_matches hw hm]
      trivial
    exact ⟨hput.goOn htick, Lasting.of_set hi rfl (hlast _)⟩
  | true =>
    refine ⟨?_, Lasting.of_set hi rfl (hlast { job with status := .admissionWaiting })⟩
    have hidle : Inv maxRetries { s with tick := tick } := h.goOn htick
    have hput : Inv maxRetries
        ({ s with tick := tick }.put i { job with status := .admissionWaiting }) := by
      refine hidle.put hi (hgood.goOn hw (Or.inl rfl)) (fun hj => ?_) fun pc hm => ?_
      · cases hj.symm.trans htick
      · rw [not_matches hw hm]
        trivial
    have hnew : ∀ (k : ℕ) (t : Task), (s.tasks ++ [(⟨i, .spawned⟩ : Task)])[k]? = some t →
        s.tasks[k]? = some t ∨ k = s.tasks.length ∧ t = ⟨i, .spawned⟩ := fun k t hk =>
      Table.append_cases hk
    exact
      { hput with
        task := fun k t hk ha => by
          rcases hnew k t hk with hk | ⟨-, rfl⟩
          · exact hput.task k t hk ha
          · exact ⟨_, Table.get_set_self hi, Or.inl rfl⟩
        alone := fun k k' t t' hk hk' ha ha' hjob => by
          rcases hnew k t hk with hk | ⟨rfl, rfl⟩
          · rcases hnew k' t' hk' with hk' | ⟨rfl, rfl⟩
            · exact h.alone k k' t t' hk hk' ha ha' hjob
            · exact absurd hjob (h.no_task hi hw hk ha)
          · rcases hnew k' t' hk' with hk' | ⟨rfl, rfl⟩
            · exact absurd hjob.symm (h.no_task hi hw hk' ha')
            · rfl }

theorem Inv.stepTick (h : Inv maxRetries s) {a : Act} (hc : Plain maxRetries s a)
    (hs : s.stepTick a = some s') : Inv maxRetries s' ∧ Lasting s s' := by
  cases a <;> simp only [State.stepTick, reduceCtorEq] at hs
  case tick =>
    obtain ⟨_, rfl⟩ := guard_some hs
    split
    · exact ⟨h, Lasting.refl s⟩
    · exact ⟨h.goOn rfl, Lasting.of_jobs rfl⟩
  case inventory containers =>
    split at hs
    case h_2 => cases hs
    case h_1 ids _ =>
      cases hs
      refine ⟨h.goOn ?_, Lasting.of_jobs rfl⟩
      cases containers <;> rfl
  case visit fits =>
    split at hs
    case h_1 cs i ids _ =>
      cases hs
      exact h.visit i cs ids fits
    case h_2 =>
      cases hs
      exact ⟨h.goOn rfl, Lasting.of_jobs rfl⟩
    case h_3 => cases hs
  case probed ready =>
    split at hs
    case h_2 => cases hs
    case h_1 i cs ids ht =>
      obtain ⟨job, hi, rfl⟩ := Option.map_eq_some_iff.mp hs
      exact h.probed (by rw [ht]; rfl) hi ready rfl
  case starts =>
    split at hs
    case h_2 => cases hs
    case h_1 i create cs ids ht =>
      obtain ⟨job, hi, rfl⟩ := Option.map_eq_some_iff.mp hs
      obtain ⟨other, hother, hw⟩ := h.tick i (by rw [ht]; rfl)
      cases hi.symm.trans hother
      have hgood := h.good i job hi
      exact ⟨h.put hi { hgood with } (fun _ => hw) fun _ hm => hm, Lasting.of_set hi rfl
        (Job.Lasts.of_not_finished hgood (not_finished_of_waiting hw))⟩
  case started name =>
    split at hs
    case h_2 => cases hs
    case h_1 i create cs ids ht =>
      obtain ⟨job, hi, rfl⟩ := Option.map_eq_some_iff.mp hs
      obtain ⟨other, hother, hw⟩ := h.tick i (by rw [ht]; rfl)
      cases hi.symm.trans hother
      have hgood := h.good i job hi
      have hput : ∀ c, Inv maxRetries
          (s.put i { job with container := c, status := .dispatching }) := by
        intro c
        refine h.put hi { hgood.goOn hw (Or.inr rfl) with } (fun _ => rfl) fun pc hm => ?_
        rw [not_matches hw hm]
        trivial
      exact ⟨(hput _).goOn rfl, Lasting.of_set hi rfl
        (Job.Lasts.of_not_finished hgood (not_finished_of_waiting hw))⟩
  case startFails => exact absurd hc not_false

/-! ## The tasks -/

variable {t : Task} {pc : TaskPc} {st : Status}

/-- The task at `k` goes on with its job. -/
theorem Inv.moveTask (h : Inv maxRetries s) (hk : s.tasks[k]? = some t) (ha : t.active)
    (hi : s.jobs[t.job]? = some job) (hjobs : s'.jobs = s.jobs.set t.job job')
    (htasks : s'.tasks = s.tasks.set k ⟨t.job, pc⟩) (htick : s'.tick = s.tick)
    (hgood : Good maxRetries s'.queue t.job job')
    (hq : ∀ j, j ≠ t.job → (j ∈ s'.queue ↔ j ∈ s.queue)) (hnodup : s'.queue.Nodup)
    (hm : Matches pc job'.status) : Inv maxRetries s' := by
  refine h.update hi hjobs hgood hq hnodup (fun j hj => ?_) fun k' t' hk' ha' => ?_
  · rw [htick] at hj
    refine ⟨hj, fun he => ?_⟩
    obtain ⟨other, hother, hw⟩ := h.tick j hj
    exact absurd he.symm (h.no_task hother hw hk ha)
  · rw [htasks] at hk'
    rcases Table.set_cases hk' with ⟨rfl, rfl⟩ | ⟨hne, hk'⟩
    · exact ⟨t, hk, ha, rfl, fun _ => hm, fun hno => absurd rfl hno⟩
    · refine ⟨t', hk', ha', rfl, fun he => ?_, fun _ => rfl⟩
      exact absurd (h.alone k' k t' t hk' hk ha' ha he) hne

/-- What the status of a task's job is. -/
theorem Inv.task_status (h : Inv maxRetries s) (hk : s.tasks[k]? = some t) (ha : t.active)
    (hi : s.jobs[t.job]? = some job) : Matches t.pc job.status := by
  obtain ⟨other, hother, hm⟩ := h.task k t hk ha
  cases hi.symm.trans hother
  exact hm

theorem Inv.finish (h : Inv maxRetries s) (hk : s.tasks[k]? = some t) (ha : t.active)
    (hi : s.jobs[t.job]? = some job) (hst : st.isFinished)
    (hc : job.cancel ↔ st = .canceled) :
    Inv maxRetries (s.finish k t.job { job with status := st }) := by
  have hgood := h.good t.job job hi
  have hqueue : (s.finish k t.job { job with status := st }).queue = s.queue.erase t.job := by
    unfold State.finish
    rw [if_pos hst]
    rfl
  have hrest : (s.finish k t.job { job with status := st }).jobs =
      s.jobs.set t.job { job with status := st } ∧
      (s.finish k t.job { job with status := st }).tasks = s.tasks.set k ⟨t.job, .ended⟩ ∧
      (s.finish k t.job { job with status := st }).tick = s.tick := by
    unfold State.finish
    rw [if_pos hst]
    exact ⟨rfl, rfl, rfl⟩
  refine h.moveTask hk ha hi hrest.1 hrest.2.1 hrest.2.2 ?_ (fun j hj => ?_) ?_ trivial
  · rw [hqueue]
    exact
      { queued := fun hw => absurd ((not_finished_of_waiting hw).symm.trans hst) Bool.false_ne_true
        finished := fun _ hm => h.nodup.not_mem_erase hm
        canceled := hc
        counted := hgood.counted
        bounded := hgood.bounded
        spare := fun hw => absurd ((not_finished_of_cancelable hw).symm.trans hst)
          Bool.false_ne_true }
  · rw [hqueue]
    exact List.mem_erase_of_ne hj
  · rw [hqueue]
    exact h.nodup.erase t.job

theorem finish_jobs (k i : ℕ) (job : Job) : (s.finish k i job).jobs = s.jobs.set i job := by
  unfold State.finish
  split <;> rfl

/-- A failed attempt is made again, or the job has failed. -/
theorem Inv.retry (h : Inv maxRetries s) (hk : s.tasks[k]? = some t) (ha : t.active)
    (hi : s.jobs[t.job]? = some job) (hf : job.status.isFinished = false) :
    Inv maxRetries (s.retry maxRetries k t.job job) ∧
      Lasting s (s.retry maxRetries k t.job job) := by
  have hgood := h.good t.job job hi
  have hcancel := hgood.not_canceled hf
  have hlast : ∀ job', job.Lasts job' := fun _ => Job.Lasts.of_not_finished hgood hf
  unfold State.retry
  dsimp only
  split
  case isFalse =>
    refine ⟨h.finish hk ha hi rfl ⟨fun hc => ?_, nofun⟩,
      Lasting.of_set hi (finish_jobs k t.job _) (hlast _)⟩
    rw [hcancel] at hc
    cases hc
  case isTrue hle =>
    have hnew : ∀ q, t.job ∈ q → Good maxRetries q t.job { job with status := .pending } := by
      intro q hq
      exact
        { queued := fun _ => hq
          finished := nofun
          canceled := by
            refine ⟨fun hc => ?_, nofun⟩
            cases hc.symm.trans hcancel
          counted := hgood.counted
          bounded := hgood.bounded
          spare := fun _ _ => by
            rw [hgood.counted]
            exact hle }
    split
    case isTrue hm =>
      exact ⟨h.moveTask hk ha hi rfl rfl rfl (hnew _ hm) (fun _ _ => Iff.rfl) h.nodup trivial,
        Lasting.of_set hi rfl (hlast { job with status := .pending })⟩
    case isFalse hm =>
      have hmem : ∀ j, j ≠ t.job → (j ∈ s.queue ++ [t.job] ↔ j ∈ s.queue) := by
        intro j hj
        rw [List.mem_append, List.mem_singleton]
        exact or_iff_left hj
      refine ⟨h.moveTask hk ha hi rfl rfl rfl (hnew _ ?_) hmem ?_ trivial,
        Lasting.of_set hi rfl (hlast { job with status := .pending })⟩
      · exact List.mem_append.mpr (Or.inr (List.mem_singleton.mpr rfl))
      · refine List.nodup_append.mpr ⟨h.nodup, List.pairwise_singleton _ _, fun j hj j' hj' he => ?_⟩
        rw [he, List.mem_singleton.mp hj'] at hj
        exact hm hj

/-- A task that awaits its admission, with a job that is not canceled. -/
theorem Inv.admitting (h : Inv maxRetries s) (hk : s.tasks[k]? = some t)
    (hi : s.jobs[t.job]? = some job) (hpc : t.pc = .admitting) (hc : job.cancel = false) :
    job.status = .admissionWaiting := by
  have hm := h.task_status hk (by rw [Task.active, hpc]; rfl) hi
  rw [hpc] at hm
  rcases hm with hst | hst
  · exact hst
  · rw [(h.good t.job job hi).canceled.mpr hst] at hc
    cases hc

theorem Inv.stepTask (h : Inv maxRetries s) {a : Act} (hat : a.task = some k)
    (hc : Plain maxRetries s a) (hk : s.tasks[k]? = some t) (hi : s.jobs[t.job]? = some job)
    (hs : s.stepTask maxRetries k t.pc t.job job a = some s') :
    Inv maxRetries s' ∧ Lasting s s' := by
  have hgood := h.good t.job job hi
  have hlive : ∀ k', k' = k → s.live k' → job.cancel = false := by
    rintro k' rfl hl
    exact hl t hk job hi
  have hactive : ∀ pc, t.pc = pc → pc ≠ .ended → t.active := by
    rintro pc rfl hne
    rw [Task.active, decide_eq_true_eq]
    exact hne
  cases a <;> simp only [State.stepTask, reduceCtorEq] at hs
  all_goals obtain rfl := Option.some.inj hat
  case begin =>
    obtain ⟨hpc, rfl⟩ := guard_some hs
    have ha := hactive _ hpc nofun
    have hm := h.task_status hk ha hi
    rw [hpc] at hm
    have hset : s.jobs = s.jobs.set t.job job := (Table.set_self hi).symm
    refine ⟨h.moveTask hk ha hi hset rfl rfl hgood (fun _ _ => Iff.rfl) h.nodup ?_,
      Lasting.of_jobs rfl⟩
    split
    · exact hm
    · trivial
  case wakes =>
    obtain ⟨hpc, rfl⟩ := guard_some hs
    have hst := h.admitting hk hi hpc (hlive _ rfl hc)
    refine ⟨h.put hi { hgood with } (fun ht => ?_) fun _ hm => hm,
      Lasting.of_set hi rfl (Job.Lasts.of_not_finished hgood (by rw [hst]; rfl))⟩
    obtain ⟨other, hother, hw⟩ := h.tick _ ht
    obtain rfl := Option.some.inj (hi.symm.trans hother)
    exact hw
  case admitted k =>
    obtain ⟨hpc, rfl⟩ := guard_some hs
    have ha := hactive _ hpc nofun
    split
    case isTrue hcancel =>
      have hst := hgood.canceled.mp hcancel
      refine ⟨h.finish hk ha hi rfl ⟨fun _ => rfl, fun _ => hcancel⟩,
        Lasting.of_set hi (finish_jobs k t.job _) ?_⟩
      exact ⟨fun _ => hst.symm, fun hh => hh, fun _ => rfl, fun _ => rfl⟩
    case isFalse hcancel =>
      have hno := (Bool.not_eq_true _).mp hcancel
      have hst := h.admitting hk hi hpc hno
      have hmax : 0 ≤ maxRetries := hc fun t' hk' job' hi' => by
        obtain rfl := Option.some.inj (hk.symm.trans hk')
        obtain rfl := Option.some.inj (hi.symm.trans hi')
        exact hno
      refine ⟨h.moveTask hk ha hi rfl rfl rfl ?_ (fun _ _ => Iff.rfl) h.nodup rfl,
        Lasting.of_set hi rfl
          (Job.Lasts.of_not_finished hgood (by rw [hst]; rfl))⟩
      exact
        { queued := nofun
          finished := nofun
          canceled := ⟨fun hh => absurd hh hcancel, nofun⟩
          counted := congrArg (· + 1) hgood.counted
          bounded := fun _ => by
            have hspare := hgood.spare (by rw [hst]; rfl)
            change ((job.sent + 1 : ℕ) : ℤ) ≤ maxRetries + 1
            omega
          spare := nofun }
  case aborted k =>
    obtain ⟨hpc, rfl⟩ := guard_some hs
    have ha := hactive _ hpc.1 nofun
    have hst := hgood.canceled.mp hpc.2
    refine ⟨h.finish hk ha hi rfl ⟨fun _ => rfl, fun _ => hpc.2⟩,
      Lasting.of_set hi (finish_jobs k t.job _) ?_⟩
    exact ⟨fun _ => hst.symm, fun hh => hh, fun _ => rfl, fun _ => rfl⟩
  case admissionFails =>
    obtain ⟨hpc, rfl⟩ := guard_some hs
    have ha := hactive _ hpc nofun
    have hst := h.admitting hk hi hpc (hlive _ rfl hc)
    exact h.retry hk ha hi (by rw [hst]; rfl)
  case answered k =>
    obtain ⟨hpc, rfl⟩ := guard_some hs
    have ha := hactive _ hpc nofun
    have hm := h.task_status hk ha hi
    rw [hpc] at hm
    have hst : job.status = .running := hm
    have hfin : job.status.isFinished = false := by
      rw [hst]
      rfl
    refine ⟨h.finish hk ha hi rfl ⟨fun hh => ?_, nofun⟩,
      Lasting.of_set hi (finish_jobs k t.job _) (Job.Lasts.of_not_finished hgood hfin)⟩
    rw [hgood.not_canceled hfin] at hh
    cases hh
  case answerFails =>
    obtain ⟨hpc, rfl⟩ := guard_some hs
    have ha := hactive _ hpc nofun
    have hm := h.task_status hk ha hi
    rw [hpc] at hm
    have hst : job.status = .running := hm
    exact h.retry hk ha hi (by rw [hst]; rfl)

/-! ## Runs -/

theorem Inv.override (h : Inv maxRetries s) (i : ℕ) (hi : s.jobs[i]? = some job) :
    Inv maxRetries (s.put i { job with override := true }) ∧
      Lasting s (s.put i { job with override := true }) := by
  have hgood := h.good i job hi
  refine ⟨h.put hi { hgood with } (fun ht => ?_) fun _ hm => hm,
    Lasting.of_set hi rfl { Job.Lasts.refl job with }⟩
  obtain ⟨other, hother, hw⟩ := h.tick i ht
  cases hi.symm.trans hother
  exact hw

/-- One step keeps the invariant, and what is finished. -/
theorem Inv.step (h : Inv maxRetries s) {a : Act} (hc : Plain maxRetries s a)
    (hs : Jobs.step maxRetries s a = some s') : Inv maxRetries s' ∧ Lasting s s' := by
  cases hat : a.task with
  | none =>
    cases a with
    | submit model container =>
      cases hs
      exact ⟨h.submit model container, fun i job hi =>
        ⟨job, Table.get_append hi, Job.Lasts.refl job⟩⟩
    | forceRun i =>
      cases hs
      split
      case h_2 => exact ⟨h, Lasting.refl s⟩
      case h_1 job hi =>
        split
        · exact h.override i hi
        · exact ⟨h, Lasting.refl s⟩
    | cancel i =>
      cases hs
      exact h.cancel hc
    | clearFinished =>
      cases hs
      exact ⟨h.clearFinished, Lasting.clearFinished s⟩
    | tick | inventory containers | visit fits | probed ready | starts | started name
    | startFails => exact h.stepTick hc hs
    | _ => cases hat
  | some k =>
    have htask : ∃ t job, s.tasks[k]? = some t ∧ s.jobs[t.job]? = some job ∧
        s.stepTask maxRetries k t.pc t.job job a = some s' := by
      cases a with
      | submit | forceRun | cancel | clearFinished | tick | inventory | visit | probed | starts
      | started | startFails => cases hat
      | _ =>
        simp only [Jobs.step, hat] at hs
        split at hs
        case h_2 => cases hs
        case h_1 t hk =>
          split at hs
          case h_2 => cases hs
          case h_1 job hi => exact ⟨t, job, hk, hi, hs⟩
    obtain ⟨t, job, hk, hi, hs⟩ := htask
    exact h.stepTask hat hc hk hi hs

/-- **In every run whose steps meet `Plain`**, every state is orderly, and what is finished or
canceled in a state stays so in every state after it. -/
theorem jobs_settled {s s' : State} (h : Reach (step maxRetries) (Plain maxRetries) init s)
    (h' : Reach (step maxRetries) (Plain maxRetries) s s') :
    Orderly maxRetries s' ∧ Lasting s s' := by
  have hs : Inv maxRetries s :=
    h.invariant inv_init fun _ _ _ hi hc hs => (Inv.step hi hc hs).1
  have hboth : Inv maxRetries s' ∧ Lasting s s' :=
    h'.invariant (P := fun t => Inv maxRetries t ∧ Lasting s t) ⟨hs, Lasting.refl s⟩ fun _ _ _ hi hc hs =>
      ⟨(Inv.step hi.1 hc hs).1, hi.2.trans (Inv.step hi.1 hc hs).2⟩
  exact ⟨hboth.1.order, hboth.2⟩

/-! ## Two runs -/

instance (k : ℕ) : Decidable (s.live k) :=
  inferInstanceAs (Decidable (∀ t ∈ s.tasks[k]?, ∀ job ∈ s.jobs[t.job]?, job.cancel = false))

instance (maxRetries : ℤ) (s : State) : ∀ a, Decidable (Plain maxRetries s a)
  | .cancel i => inferInstanceAs (Decidable (s.tick.job ≠ some i))
  | .startFails => isFalse not_false
  | .wakes k => inferInstanceAs (Decidable (s.live k))
  | .admissionFails k => inferInstanceAs (Decidable (s.live k))
  | .admitted k => inferInstanceAs (Decidable (s.live k → 0 ≤ maxRetries))
  | .submit _ _ | .forceRun _ | .clearFinished | .tick | .inventory _ | .visit _ | .probed _
  | .starts | .started _ | .begin _ | .aborted _ | .answered _ | .answerFails _ => isTrue trivial

/-- The model is running in a container. -/
def served : List Container := [⟨"vllm", true, ["model"]⟩]

/-- A job whose first attempt fails is sent again, and answered. -/
theorem settled_done : ∃ s, Orderly 2 s ∧ Lasting init s ∧
    s.jobs.map (fun job => (job.status, job.sent)) = [(.done, 2)] := by
  have hrun : (replay (step 2) (Plain 2) init [.submit "model" none, .tick,
      .inventory (some served), .visit true, .probed true, .begin 0, .admitted 0, .answerFails 0,
      .visit true, .tick, .inventory (some served), .visit true, .probed true, .begin 1,
      .admitted 1, .answered 1]).any
      (fun s => decide (s.jobs.map (fun job => (job.status, job.sent)) = [(.done, 2)])) = true := by
    decide +kernel
  obtain ⟨s, hr, hs⟩ := reach_any hrun
  have hset := jobs_settled Reach.refl hr
  exact ⟨s, hset.1, hset.2, of_decide_eq_true hs⟩

/-- The job is canceled while the tick probes its container, which is not ready. -/
def probing : State :=
  ⟨[⟨"model", none, .canceled, false, 0, true, true, 0, 0⟩], [], .probing 0 served [], []⟩

/-- The tick writes `DISPATCHING` over `CANCELED`, and the job is in no queue. -/
theorem revived : ∃ s, Reach (step 2) Free init probing ∧ Reach (step 2) Free probing s ∧
    ¬Lasting probing s ∧ ¬Orderly 2 s := by
  have hrun : replay (step 2) Free init [.submit "model" none, .tick, .inventory (some served),
      .visit true, .cancel 0] = some probing := by
    decide +kernel
  refine ⟨⟨[⟨"model", none, .dispatching, false, 0, true, true, 0, 0⟩], [], .visiting served [],
    []⟩, reach_of_replay hrun, Reach.refl.tail (e := .probed false) trivial rfl, fun hl => ?_,
    fun ho => ?_⟩
  · obtain ⟨job, hjob, hlasts⟩ := hl 0 _ rfl
    cases hjob
    have hst := hlasts.status rfl
    cases hst
  · exact List.not_mem_nil (ho.queued 0 _ rfl rfl)

end SparkDeck.Jobs
