import SparkDeck.Lib.Table
import SparkDeck.Lib.Transition
import SparkDeck.Benchmark.Runner

/-!
# The run slot is never lost, and a cancelled run stays cancelled

`Good` is what holds of each run, `Inv` what every step keeps. `slot_kept` is the result for runs
that meet `Plain`; `slot_lost` is a run that does not: the request is cancelled while it awaits the
process.
-/

namespace SparkDeck.Benchmark

open Transition

variable {s s' : State} {st st' : Start} {i : ℕ} {run run' : Run}

/-- What holds of the run at `i`. -/
structure Good (st : Start) (i : ℕ) (run : Run) : Prop where
  watched : run.listed → run.status.isActive →
    run.monitor.isLive ∨ st = .spawning i
  live : run.monitor.isLive ∨ st = .spawning i →
    run.status.isActive ∧ run.listed
  fresh : st = .spawning i → run.monitor = .none ∧ run.condemned = false
  tracked : run.monitor = .spawned ∨ run.monitor = .polling → run.tracked
  stopped : run.returned → run.process ≠ .alive
  cancelled : run.condemned →
    run.status = .cancelled ∨
      run.cancelRequested ∧ (run.monitor = .spawned ∨ run.monitor = .polling)
  file : run.listed = false → run.file = none

structure Inv (s : State) : Prop where
  good : ∀ (i : ℕ) (run : Run), s.runs[i]? = some run → Good s.start i run
  one : ∀ (i j : ℕ) (run run' : Run), s.runs[i]? = some run → s.runs[j]? = some run' →
    run.listed → run'.listed → run.status.isActive →
    run'.status.isActive → i = j
  listing : s.start = .listing → s.anyActive = false

theorem condemned_of_returned (h : run.returned) : run.condemned := by
  rw [Run.condemned, h]
  rfl

theorem condemned_of_stopping (h : 0 < run.stopping) : run.condemned := by
  rw [Run.condemned, decide_eq_true h, Bool.or_true]

theorem not_condemned (h : run.condemned = false) : run.returned = false ∧ run.stopping = 0 := by
  rw [Run.condemned, Bool.or_eq_false_iff, decide_eq_false_iff_not] at h
  exact ⟨h.1, by omega⟩

theorem not_live {m : Monitor} (h : m = .none ∨ m = .ended) : m.isLive = false := by
  rcases h with rfl | rfl <;> rfl

theorem live_of_polling {m : Monitor} (h : m = .spawned ∨ m = .polling) : m.isLive := by
  rcases h with rfl | rfl <;> rfl

theorem Inv.sound (h : Inv s) : Sound s where
  one := h.one
  watched i run hi := (h.good i run hi).watched
  stopped run hm := by
    obtain ⟨i, hi⟩ := List.mem_iff_getElem?.mp hm
    exact (h.good i run hi).stopped
  cancelled run hm hr ha := by
    obtain ⟨i, hi⟩ := List.mem_iff_getElem?.mp hm
    have hgood := h.good i run hi
    rcases hgood.cancelled (condemned_of_returned hr) with hc | ⟨-, hm⟩
    · exact hc
    · rw [(hgood.live (Or.inl (live_of_polling hm))).1] at ha
      cases ha

theorem inv_init : Inv init where
  good i run hi := by cases hi
  one i j run run' hi := by cases hi
  listing hs := by cases hs

/-! ## What lasts -/

theorem Run.Lasts.refl (run : Run) : run.Lasts run := ⟨fun _ => rfl, fun h => h⟩

theorem Run.Lasts.trans {run'' : Run} (h : run.Lasts run') (h' : run'.Lasts run'') :
    run.Lasts run'' where
  status ha := by
    have hst := h.status ha
    rw [← hst] at ha
    exact (h'.status ha).trans hst
  deleted hl := h'.deleted (h.deleted hl)

theorem Lasting.refl (s : State) : Lasting s s := fun _ run hi => ⟨run, hi, Run.Lasts.refl run⟩

theorem Lasting.trans {s'' : State} (h : Lasting s s') (h' : Lasting s' s'') : Lasting s s'' := by
  intro i run hi
  obtain ⟨run', hi', hl⟩ := h i run hi
  obtain ⟨run'', hi'', hl'⟩ := h' i run' hi'
  exact ⟨run'', hi'', hl.trans hl'⟩

theorem Lasting.of_set (hi : s.runs[i]? = some run) (h : s'.runs = s.runs.set i run')
    (hl : run.Lasts run') : Lasting s s' := by
  intro j other hj
  rw [h]
  by_cases hji : j = i
  · subst hji
    cases hi.symm.trans hj
    exact ⟨run', Table.get_set_self hj, hl⟩
  · exact ⟨other, Table.get_set_ne hj hji, Run.Lasts.refl other⟩

/-- An active run that is listed may become anything. -/
theorem Run.Lasts.of_active (ha : run.status.isActive) (hl : run.listed) :
    run.Lasts run' := by
  refine ⟨fun h => ?_, fun h => ?_⟩
  · cases ha.symm.trans h
  · cases hl.symm.trans h

/-! ## One run changes -/

theorem Good.congr (h : Good st i run) (hst : st' = .spawning i ↔ st = .spawning i) :
    Good st' i run :=
  { h with
    watched := fun hl ha => (h.watched hl ha).imp_right hst.mpr
    live := fun hm => h.live (hm.imp_right hst.mp)
    fresh := fun hs => h.fresh (hst.mp hs) }

/-- The run at `i` changes, and `start_run` goes on with it. -/
theorem Inv.update (h : Inv s) (hi : s.runs[i]? = some run) (hgood : Good st i run')
    (hactive : run'.listed → run'.status.isActive →
      run.listed ∧ run.status.isActive)
    (hst : ∀ j, j ≠ i → (st = .spawning j ↔ s.start = .spawning j))
    (hlisting : st = .listing → s.start = .listing) :
    Inv { s.put i run' with start := st } where
  good j other hj := by
    rcases Table.set_cases hj with ⟨rfl, rfl⟩ | ⟨hji, hj⟩
    · exact hgood
    · exact (h.good j other hj).congr (hst j hji)
  one j k other other' hj hk hl hl' ha ha' := by
    have hback : ∀ (j : ℕ) (other : Run), (s.runs.set i run')[j]? = some other →
        other.listed → other.status.isActive →
        ∃ old, s.runs[j]? = some old ∧ old.listed ∧ old.status.isActive := by
      intro j other hj hl ha
      rcases Table.set_cases hj with ⟨rfl, rfl⟩ | ⟨-, hj⟩
      · exact ⟨run, hi, hactive hl ha⟩
      · exact ⟨other, hj, hl, ha⟩
    obtain ⟨old, hold, holdl, holda⟩ := hback j other hj hl ha
    obtain ⟨old', hold', holdl', holda'⟩ := hback k other' hk hl' ha'
    exact h.one j k old old' hold hold' holdl holdl' holda holda'
  listing hs := by
    have hnone := h.listing (hlisting hs)
    rw [State.anyActive, List.any_eq_false] at hnone ⊢
    intro other hm
    obtain ⟨j, hj⟩ := List.mem_iff_getElem?.mp hm
    rcases Table.set_cases hj with ⟨-, rfl⟩ | ⟨-, hj⟩
    · intro hact
      rw [Bool.and_eq_true] at hact
      have hold := hactive hact.1 hact.2
      exact hnone run (List.mem_of_getElem? hi) (Bool.and_eq_true_iff.mpr hold)
    · exact hnone other (List.mem_of_getElem? hj)

/-- The run at `i` changes and nothing else does. -/
theorem Inv.put (h : Inv s) (hi : s.runs[i]? = some run) (hgood : Good s.start i run')
    (hactive : run'.listed → run'.status.isActive →
      run.listed ∧ run.status.isActive) : Inv (s.put i run') :=
  h.update hi hgood hactive (fun _ _ => Iff.rfl) fun hs => hs

/-- `start_run` goes on before its run is registered, or after. -/
theorem Inv.goOn (h : Inv s) (hst : ∀ i, st ≠ .spawning i) (hs : ∀ i, s.start ≠ .spawning i)
    (hlisting : st = .listing → s.anyActive = false) : Inv { s with start := st } where
  good i run hi := (h.good i run hi).congr ⟨fun he => absurd he (hst i), fun he => absurd he (hs i)⟩
  one := h.one
  listing := hlisting

/-! ## `start_run` -/

theorem Good.new (i : ℕ) : Good (.spawning i) i Run.new where
  watched _ _ := Or.inr rfl
  live _ := ⟨rfl, rfl⟩
  fresh _ := ⟨rfl, rfl⟩
  tracked hm := by rcases hm with hm | hm <;> cases hm
  stopped hr := by cases hr
  cancelled hc := by cases hc
  file hl := by cases hl

/-- The run is registered. -/
theorem Inv.register (h : Inv s) (hs : s.start = .listing) :
    Inv { runs := s.runs ++ [Run.new], start := .spawning s.runs.length } where
  good j run hj := by
    rcases Table.append_cases hj with hj | ⟨rfl, rfl⟩
    · have hlt := (List.getElem?_eq_some_iff.mp hj).1
      refine (h.good j run hj).congr ⟨fun he => ?_, fun he => ?_⟩
      · have hlen := Start.spawning.inj he
        omega
      · cases hs.symm.trans he
    · exact Good.new s.runs.length
  one j k run run' hj hk hl hl' ha ha' := by
    have hnone := h.listing hs
    rw [State.anyActive, List.any_eq_false] at hnone
    have hold : ∀ (j : ℕ) (run : Run), (s.runs ++ [Run.new])[j]? = some run →
        run.listed → run.status.isActive → j = s.runs.length := by
      intro j run hj hl ha
      rcases Table.append_cases hj with hj | ⟨rfl, -⟩
      · exact absurd (Bool.and_eq_true_iff.mpr ⟨hl, ha⟩) (hnone run (List.mem_of_getElem? hj))
      · rfl
    rw [hold j run hj hl ha, hold k run' hk hl' ha']
  listing he := by cases he

/-- While a run is registered and not yet monitored. -/
theorem Inv.spawning (h : Inv s) (hs : s.start = .spawning i) (hi : s.runs[i]? = some run) :
    run.status.isActive ∧ run.listed ∧ run.monitor = .none ∧
      run.returned = false ∧ run.stopping = 0 := by
  have hgood := h.good i run hi
  obtain ⟨ha, hl⟩ := hgood.live (Or.inr hs)
  obtain ⟨hm, hc⟩ := hgood.fresh hs
  exact ⟨ha, hl, hm, not_condemned hc⟩

theorem Inv.stepStart (h : Inv s) {a : Act} (hc : Plain s a) (hs : s.stepStart a = some s') :
    Inv s' ∧ Lasting s s' := by
  cases a <;> simp only [State.stepStart, reduceCtorEq] at hs
  case start =>
    obtain ⟨hidle, rfl⟩ := guard_some hs
    refine ⟨h.goOn (fun i he => by cases he) (fun i he => ?_) nofun,
      Lasting.refl s⟩
    cases hidle.symm.trans he
  case detected ok =>
    obtain ⟨hdet, rfl⟩ := guard_some hs
    have hno : ∀ i, s.start ≠ .spawning i := by
      intro i he
      cases hdet.symm.trans he
    refine ⟨?_, Lasting.refl s⟩
    split
    case isTrue hok =>
      rw [Bool.and_eq_true, Bool.not_eq_true'] at hok
      exact h.goOn (fun i he => by cases he) hno fun _ => hok.2
    case isFalse => exact h.goOn (fun i he => by cases he) hno nofun
  case served ok saved =>
    obtain ⟨hlist, rfl⟩ := guard_some hs
    split
    case isTrue =>
      exact ⟨h.register hlist, fun i run hi => ⟨run, Table.get_append hi, Run.Lasts.refl run⟩⟩
    case isFalse =>
      refine ⟨h.goOn (fun i he => by cases he) (fun i he => ?_) nofun,
        Lasting.refl s⟩
      cases hlist.symm.trans he
  case forks =>
    split at hs
    case h_2 => cases hs
    case h_1 i hst =>
      split at hs
      case h_2 => cases hs
      case h_1 run hi =>
        obtain ⟨_, rfl⟩ := guard_some hs
        obtain ⟨ha, hl, hm, hr, -⟩ := h.spawning hst hi
        have hgood := h.good i run hi
        refine ⟨h.put hi { hgood with stopped := fun he => ?_ } fun hl ha => ⟨hl, ha⟩,
          Lasting.of_set hi rfl (Run.Lasts.of_active ha hl)⟩
        cases he.symm.trans hr
  case spawned =>
    split at hs
    case h_2 => cases hs
    case h_1 i hst =>
      split at hs
      case h_2 => cases hs
      case h_1 run hi =>
        obtain ⟨_, rfl⟩ := guard_some hs
        obtain ⟨ha, hl, hm, hr, hz⟩ := h.spawning hst hi
        have hcond : run.condemned = false := ((h.good i run hi).fresh hst).2
        have hother : ∀ j, j ≠ i → (Start.idle = .spawning j ↔ s.start = .spawning j) := by
          intro j hj
          rw [hst]
          exact ⟨nofun, fun he => absurd (Start.spawning.inj he).symm hj⟩
        refine ⟨h.update hi ?_ (fun _ _ => ⟨hl, ha⟩) hother nofun,
          Lasting.of_set hi rfl (Run.Lasts.of_active ha hl)⟩
        exact
          { watched := fun _ _ => Or.inl rfl
            live := fun _ => ⟨ha, hl⟩
            fresh := nofun
            tracked := fun _ => rfl
            stopped := fun he => by
              cases he.symm.trans hr
            cancelled := fun he => by
              cases he.symm.trans hcond
            file := fun he => by
              rw [show run.listed = false from he] at hl
              cases hl }
  case spawnFails saved =>
    split at hs
    case h_2 => cases hs
    case h_1 i hst =>
      split at hs
      case h_2 => cases hs
      case h_1 run hi =>
        obtain ⟨_, rfl⟩ := guard_some hs
        obtain ⟨ha, hl, hm, hr, hz⟩ := h.spawning hst hi
        have hcond : run.condemned = false := ((h.good i run hi).fresh hst).2
        have hlive : run.monitor.isLive = false := not_live (Or.inl hm)
        have hother : ∀ j, j ≠ i → (Start.idle = .spawning j ↔ s.start = .spawning j) := by
          intro j hj
          rw [hst]
          exact ⟨nofun, fun he => absurd (Start.spawning.inj he).symm hj⟩
        refine ⟨h.update hi ?_ (fun _ _ => ⟨hl, ha⟩) hother nofun,
          Lasting.of_set hi rfl (Run.Lasts.of_active ha hl)⟩
        exact
          { watched := nofun
            live := fun he => by
              rcases he with he | he
              · cases he.symm.trans hlive
              · cases he
            fresh := nofun
            tracked := fun he => by
              rw [show (run.record .failed saved).monitor = .none from hm] at he
              rcases he with he | he <;> cases he
            stopped := fun he => by
              cases he.symm.trans hr
            cancelled := fun he => by
              cases he.symm.trans hcond
            file := fun he => by
              rw [show run.listed = false from he] at hl
              cases hl }
  case interrupted =>
    split at hs
    case h_1 i hst =>
      split at hs
      case h_2 => cases hs
      case h_1 run hi => exact absurd hst (hc i (List.getElem?_eq_some_iff.mp hi).1)
    case h_2 hno =>
      cases hs
      exact ⟨h.goOn (fun i he => by cases he) (fun i he => hno i he) nofun,
        Lasting.refl s⟩

/-! ## Cancel, delete and the monitor -/

/-- What a step has to show of the run it changes. -/
structure Good.Next (st : Start) (i : ℕ) (run run' : Run) : Prop where
  good : Good st i run'
  active : run'.listed → run'.status.isActive →
    run.listed ∧ run.status.isActive
  lasts : run.Lasts run'

/-- Nothing of what matters has changed. -/
theorem Good.same (h : Good st i run) : Good.Next st i run run :=
  ⟨h, fun hl ha => ⟨hl, ha⟩, Run.Lasts.refl run⟩

/-- The monitor has ended, and the run is not active any more. -/
theorem Good.over (h : Good st i run) (hm : run.monitor.isLive) {status : Status}
    (hs : status.isActive = false) (hc : run.condemned = true → status = .cancelled)
    (saved : Bool) {requested tracked : Bool} :
    Good.Next st i run ({ run with
      cancelRequested := requested, tracked := tracked, monitor := .ended }.record status saved) := by
  obtain ⟨ha, hl⟩ := h.live (Or.inl hm)
  have hst : st ≠ .spawning i := by
    intro he
    rw [(h.fresh he).1] at hm
    cases hm
  have hnot : ∀ {a : Status}, a = status → a.isActive ≠ true := by
    rintro a rfl he
    cases hs.symm.trans he
  refine ⟨?_, fun _ he => absurd he (hnot rfl), Run.Lasts.of_active ha hl⟩
  exact
    { watched := fun _ he => absurd he (hnot rfl)
      live := fun he => by
        rcases he with he | he
        · cases he
        · exact absurd he hst
      fresh := fun he => absurd he hst
      tracked := fun he => by rcases he with he | he <;> cases he
      stopped := h.stopped
      cancelled := fun he => Or.inl (hc he)
      file := fun he => by
        rw [show run.listed = false from he] at hl
        cases hl }

/-- A run that is not active is not being started or monitored. -/
theorem Good.idle (h : Good st i run) (ha : run.status.isActive = false) :
    run.monitor.isLive = false ∧ st ≠ .spawning i := by
  constructor
  · cases hm : run.monitor.isLive with
    | false => rfl
    | true =>
      rw [(h.live (Or.inl hm)).1] at ha
      cases ha
  · intro he
    rw [(h.live (Or.inr he)).1] at ha
    cases ha

theorem Good.cancel (h : Good st i run) (hst : st ≠ .spawning i) (hm : run.monitor ≠ .stopping)
    (ha : run.status.isActive) (hl : run.listed) :
    Good.Next st i run (if run.tracked && decide (run.process = .alive) then
      { run with cancelRequested := true, stopping := run.stopping + 1 }
      else { run with cancelRequested := true, returned := true }) := by
  have hlive : run.monitor.isLive := (h.watched hl ha).resolve_right hst
  have hpolling : run.monitor = .spawned ∨ run.monitor = .polling := by
    cases hmon : run.monitor with
    | spawned => exact Or.inl rfl
    | polling => exact Or.inr rfl
    | stopping => exact absurd hmon hm
    | none | ended =>
      rw [hmon] at hlive
      cases hlive
  have htracked : run.tracked := h.tracked hpolling
  split
  case isTrue =>
    refine ⟨?_, fun _ _ => ⟨hl, ha⟩, Run.Lasts.of_active ha hl⟩
    exact
      { h with
        fresh := fun he => absurd he hst
        cancelled := fun _ => Or.inr ⟨rfl, hpolling⟩ }
  case isFalse hno =>
    refine ⟨?_, fun _ _ => ⟨hl, ha⟩, Run.Lasts.of_active ha hl⟩
    exact
      { h with
        fresh := fun he => absurd he hst
        stopped := fun _ he => hno (by
          rw [htracked, decide_eq_true (show run.process = .alive from he)]
          rfl)
        cancelled := fun _ => Or.inr ⟨rfl, hpolling⟩ }

theorem Good.step (h : Good s.start i run) (hi : s.runs[i]? = some run) {a : Act}
    (hat : a.run = some i) (hc : Plain s a) (hs : run.step a = some run') :
    Good.Next s.start i run run' := by
  cases a <;> simp only [Run.step, reduceCtorEq] at hs
  all_goals obtain rfl := Option.some.inj hat
  case cancel i =>
    split at hs
    case isFalse =>
      cases hs
      exact h.same
    case isTrue hact =>
      obtain rfl := Option.some.inj hs
      rw [Bool.and_eq_true] at hact
      exact h.cancel hc.1 (hc.2 run hi) hact.2 hact.1
  case cancelReturns i =>
    obtain ⟨hg, rfl⟩ := guard_some hs
    refine ⟨?_, fun hl ha => ⟨hl, ha⟩, ⟨fun _ => rfl, fun hl => hl⟩⟩
    have hcond := condemned_of_stopping hg.1
    exact
      { h with
        fresh := fun he => by
          rw [(h.fresh he).2] at hcond
          cases hcond
        stopped := fun _ => hg.2
        cancelled := fun _ => h.cancelled hcond }
  case cancelAborted i =>
    obtain ⟨hg, rfl⟩ := guard_some hs
    refine ⟨?_, fun hl ha => ⟨hl, ha⟩, ⟨fun _ => rfl, fun hl => hl⟩⟩
    have hcond := condemned_of_stopping hg
    exact
      { h with
        fresh := fun he => by
          rw [(h.fresh he).2] at hcond
          cases hcond
        cancelled := fun _ => h.cancelled hcond }
  case delete i =>
    obtain rfl := Option.some.inj hs
    split
    case isFalse => exact h.same
    case isTrue hd =>
      rw [Bool.and_eq_true, Bool.not_eq_true'] at hd
      obtain ⟨hm, hst⟩ := h.idle hd.2
      refine ⟨?_, nofun, ⟨fun _ => rfl, fun _ => rfl⟩⟩
      exact
        { h with
          watched := nofun
          live := fun he => by
            rcases he with he | he
            · cases he.symm.trans hm
            · exact absurd he hst
          file := fun _ => rfl }
  case deleteFails i gone =>
    obtain rfl := Option.some.inj hs
    split
    case isFalse => exact h.same
    case isTrue =>
      exact ⟨{ h with file := fun _ => rfl }, fun hl ha => ⟨hl, ha⟩, ⟨fun _ => rfl, fun hl => hl⟩⟩
  case exits i =>
    obtain ⟨_, rfl⟩ := guard_some hs
    exact ⟨{ h with stopped := nofun }, fun hl ha => ⟨hl, ha⟩,
      ⟨fun _ => rfl, fun hl => hl⟩⟩
  case polls i =>
    obtain ⟨hm, rfl⟩ := guard_some hs
    have hlive : run.monitor.isLive := by
      rw [hm]
      rfl
    refine ⟨?_, fun hl ha => ⟨hl, ha⟩, ⟨fun _ => rfl, fun hl => hl⟩⟩
    exact
      { h with
        watched := fun _ _ => Or.inl rfl
        live := fun _ => h.live (Or.inl hlive)
        fresh := fun he => by
          rw [(h.fresh he).1] at hm
          cases hm
        tracked := fun _ => h.tracked (Or.inl hm)
        cancelled := fun he => (h.cancelled he).imp_right fun hr => ⟨hr.1, Or.inr rfl⟩ }
  case finish i ok saved =>
    obtain ⟨hg, rfl⟩ := guard_some hs
    have hlive : run.monitor.isLive := by
      rw [hg.1]
      rfl
    refine h.over hlive ?_ (fun he => ?_) saved
    · split
      · rfl
      · split <;> rfl
    · rcases h.cancelled he with hst | hr
      · have ha := (h.live (Or.inl hlive)).1
        rw [hst] at ha
        cases ha
      · rw [if_pos hr.1]
  case crash i saved =>
    obtain ⟨hm, rfl⟩ := guard_some hs
    have hlive : run.monitor.isLive := by
      rw [hm]
      rfl
    refine h.over hlive rfl (fun he => ?_) saved
    rw [hc run hi] at he
    cases he
  case shutdown i =>
    obtain ⟨hns, hcond⟩ := hc run hi
    split at hs
    case h_1 hm => exact absurd hm hns
    case h_2 hm =>
      obtain rfl := Option.some.inj hs
      have hlive : run.monitor.isLive := by
        rw [hm]
        rfl
      refine ⟨?_, fun hl ha => ⟨hl, ha⟩, ⟨fun _ => rfl, fun hl => hl⟩⟩
      exact
        { h with
          watched := fun _ _ => Or.inl rfl
          live := fun _ => h.live (Or.inl hlive)
          fresh := fun he => by
            rw [(h.fresh he).1] at hm
            cases hm
          tracked := fun he => by rcases he with he | he <;> cases he
          cancelled := fun he => by
            rw [show run.condemned = true from he] at hcond
            cases hcond }
    case h_3 => cases hs
  case stopped i saved =>
    obtain ⟨hg, rfl⟩ := guard_some hs
    have hlive : run.monitor.isLive := by
      rw [hg.1]
      rfl
    refine h.over hlive rfl (fun he => ?_) saved
    rcases h.cancelled he with hst | ⟨-, hm⟩
    · have ha := (h.live (Or.inl hlive)).1
      rw [hst] at ha
      cases ha
    · rw [hg.1] at hm
      rcases hm with hm | hm <;> cases hm

/-! ## Runs -/

/-- After a restart, from files that say what the runs have come to. -/
theorem Good.load (h : Good st i run) (hr : run.status.isActive = true → run.returned = false)
    (hf : run.status.isActive = false → ∀ status ∈ run.file, status = run.status) :
    Good .idle i run.load ∧ run.Lasts run.load ∧
      ¬(run.load.listed ∧ run.load.status.isActive) := by
  have hcancelled : run.returned → run.status = .cancelled := by
    intro he
    have ha : run.status.isActive = false := by
      cases ha : run.status.isActive with
      | false => rfl
      | true =>
        rw [hr ha] at he
        cases he
    rcases h.cancelled (condemned_of_returned he) with hc | ⟨-, hm⟩
    · exact hc
    · rw [(h.live (Or.inl (live_of_polling hm))).1] at ha
      cases ha
  cases hfile : run.file with
  | none =>
    have hload : run.load = { run with
        cancelRequested := false, listed := false, tracked := false, monitor := .none,
        stopping := 0 } := by
      unfold Run.load
      rw [hfile]
    rw [hload]
    refine ⟨?_, ⟨fun _ => rfl, fun _ => rfl⟩, fun he => by cases he.1⟩
    exact
      { watched := nofun
        live := fun he => by rcases he with he | he <;> cases he
        fresh := nofun
        tracked := fun he => by rcases he with he | he <;> cases he
        stopped := h.stopped
        cancelled := fun he => by
          rw [Run.condemned, Bool.or_eq_true, decide_eq_true_eq] at he
          rcases he with he | he
          · exact Or.inl (hcancelled he)
          · cases he
        file := fun _ => hfile }
  | some status =>
    have hload : run.load = { run with
        status := if status.isActive then .failed else status
        file := some (if status.isActive then .failed else status)
        cancelRequested := false, listed := true, tracked := false, monitor := .none,
        stopping := 0 } := by
      unfold Run.load
      rw [hfile]
    have hdead : (if status.isActive then Status.failed else status).isActive = false := by
      cases status <;> rfl
    have hkeep : run.status.isActive = false →
        (if status.isActive then Status.failed else status) = run.status := by
      intro ha
      obtain rfl := hf ha status hfile
      rw [ha]
      rfl
    rw [hload]
    refine ⟨?_, ⟨hkeep, fun hl => ?_⟩, fun he => ?_⟩
    · exact
        { watched := fun _ he => by
            cases hdead.symm.trans he
          live := fun he => by rcases he with he | he <;> cases he
          fresh := nofun
          tracked := fun he => by rcases he with he | he <;> cases he
          stopped := h.stopped
          cancelled := fun he => by
            rw [Run.condemned, Bool.or_eq_true, decide_eq_true_eq] at he
            rcases he with he | he
            · have hst := hcancelled he
              exact Or.inl ((hkeep (by rw [hst]; rfl)).trans hst)
            · cases he
          file := nofun }
    · rw [h.file hl] at hfile
      cases hfile
    · rw [hdead] at he
      cases he.2

theorem Inv.restart (h : Inv s) (hc : Plain s .restart) :
    Inv ⟨s.runs.map Run.load, .idle⟩ ∧ Lasting s ⟨s.runs.map Run.load, .idle⟩ := by
  have hback : ∀ (i : ℕ) (run : Run), (s.runs.map Run.load)[i]? = some run →
      ∃ old, s.runs[i]? = some old ∧ run = old.load ∧ Good .idle i old.load ∧
        ¬(old.load.listed ∧ old.load.status.isActive) := by
    intro i run hi
    rw [List.getElem?_map] at hi
    obtain ⟨old, hold, rfl⟩ := Option.map_eq_some_iff.mp hi
    have hplain := hc old (List.mem_of_getElem? hold)
    obtain ⟨hgood, -, hno⟩ := (h.good i old hold).load hplain.1 hplain.2
    exact ⟨old, hold, rfl, hgood, hno⟩
  constructor
  · exact
      { good := fun i run hi => by
          obtain ⟨old, -, rfl, hgood, -⟩ := hback i run hi
          exact hgood
        one := fun i j run run' hi _ hl _ ha _ => by
          obtain ⟨old, -, rfl, -, hno⟩ := hback i run hi
          exact absurd ⟨hl, ha⟩ hno
        listing := nofun }
  · intro i run hi
    have hplain := hc run (List.mem_of_getElem? hi)
    refine ⟨run.load, ?_, ((h.good i run hi).load hplain.1 hplain.2).2.1⟩
    rw [List.getElem?_map, hi]
    rfl

/-- One step keeps the invariant, what is over and what is deleted. -/
theorem Inv.step (h : Inv s) {a : Act} (hc : Plain s a) (hs : Benchmark.step s a = some s') :
    Inv s' ∧ Lasting s s' := by
  cases hat : a.run with
  | none =>
    cases a with
    | restart =>
      cases hs
      exact h.restart hc
    | start | detected ok | served ok saved | forks | spawned | spawnFails saved | interrupted =>
      exact h.stepStart hc hs
    | _ => cases hat
  | some i =>
    have hrun : ∃ run run', s.runs[i]? = some run ∧ run.step a = some run' ∧
        s' = s.put i run' := by
      cases a with
      | restart | start | detected | served | forks | spawned | spawnFails | interrupted =>
        cases hat
      | _ =>
        simp only [Benchmark.step, hat] at hs
        split at hs
        case h_2 => cases hs
        case h_1 run hi =>
          obtain ⟨run', hr, rfl⟩ := Option.map_eq_some_iff.mp hs
          exact ⟨run, run', hi, hr, rfl⟩
    obtain ⟨run, run', hi, hr, rfl⟩ := hrun
    have hnext := (h.good i run hi).step hi hat hc hr
    exact ⟨h.put hi hnext.good hnext.active, Lasting.of_set hi rfl hnext.lasts⟩

/-- **In every run whose steps meet `Plain`** the slot has an owner, a cancelled run has no process
and ends cancelled, and what is over or deleted stays so. -/
theorem slot_kept {s s' : State} (h : Reach step Plain init s) (h' : Reach step Plain s s') :
    Sound s' ∧ Lasting s s' := by
  have hs : Inv s := h.invariant inv_init fun _ _ _ hi hc hs => (Inv.step hi hc hs).1
  have hboth : Inv s' ∧ Lasting s s' :=
    h'.invariant (P := fun t => Inv t ∧ Lasting s t) ⟨hs, Lasting.refl s⟩ fun _ _ _ hi hc hs =>
      ⟨(Inv.step hi.1 hc hs).1, hi.2.trans (Inv.step hi.1 hc hs).2⟩
  exact ⟨hboth.1.sound, hboth.2⟩

/-! ## Two runs -/

instance (i : ℕ) : Decidable (s.attended i) :=
  inferInstanceAs (Decidable (_ ∧ ∀ run ∈ s.runs[i]?, run.monitor ≠ .stopping))

instance (s : State) : ∀ a, Decidable (Plain s a)
  | .interrupted => inferInstanceAs (Decidable (∀ i < s.runs.length, s.start ≠ .spawning i))
  | .cancel i => inferInstanceAs (Decidable (s.attended i))
  | .crash i _ => inferInstanceAs (Decidable (∀ run ∈ s.runs[i]?, run.condemned = false))
  | .shutdown i => inferInstanceAs (Decidable (∀ run ∈ s.runs[i]?,
      run.monitor ≠ .spawned ∧ run.condemned = false))
  | .restart => inferInstanceAs (Decidable (∀ run ∈ s.runs,
      (run.status.isActive = true → run.returned = false) ∧
      (run.status.isActive = false → ∀ status ∈ run.file, status = run.status)))
  | .start | .detected _ | .served _ _ | .forks | .spawned | .spawnFails _ | .cancelReturns _
  | .cancelAborted _ | .delete _ | .deleteFails _ _ | .exits _ | .polls _ | .finish _ _ _
  | .stopped _ _ => isTrue trivial

/-- A run is cancelled, and is over after a restart as well; the next one can start. -/
theorem slot_kept_cancelled : ∃ s, Sound s ∧ Lasting init s ∧ s.start = .spawning 1 ∧
    s.runs.map (·.status) = [.cancelled, .running] := by
  have hrun : (replay step Plain init [.start, .detected true, .served true true, .forks, .spawned,
      .polls 0, .cancel 0, .exits 0, .cancelReturns 0, .finish 0 true true, .restart, .start,
      .detected true, .served true true]).any (fun s => decide (s.start = .spawning 1) &&
        decide (s.runs.map (·.status) = [.cancelled, .running])) = true := by
    decide +kernel
  obtain ⟨s, hr, hs⟩ := reach_any hrun
  rw [Bool.and_eq_true, decide_eq_true_eq, decide_eq_true_eq] at hs
  have hkept := slot_kept Reach.refl hr
  exact ⟨s, hkept.1, hkept.2, hs.1, hs.2⟩

/-- The run was registered, and its process never was: it is active for ever. -/
def lost : State := ⟨[⟨.running, false, true, some .running, .none, false, .none, 0, false⟩], .idle⟩

/-- The request is cancelled while it awaits the process. -/
theorem slot_lost : Reach step Free init lost ∧ ¬Sound lost := by
  have hrun : replay step Free init [.start, .detected true, .served true true, .interrupted] =
      some lost := by
    decide +kernel
  refine ⟨reach_of_replay hrun, fun hs => ?_⟩
  rcases hs.watched 0 _ rfl rfl rfl with hm | hm <;> cases hm

end SparkDeck.Benchmark
