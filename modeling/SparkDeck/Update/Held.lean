import SparkDeck.Lib.Table
import SparkDeck.Update.Reservation

/-!
# The reservation is held as long as it is needed

`Core` is what every step keeps: who has the reservation (`needed`), and who will end it (`owed`): the
rollout before its `finally` block has looked, or whoever clears `_local_update_reserved`, unless the
thread that is about to clear it leaves the present reservation alone. `held` is the result for runs
that meet `Plain`; `stranded` is a run that does not, after which transfers are held off for ever.
-/

namespace SparkDeck.Update.Reservation

open Transition

variable {s s' : State} {i g : ℕ} {h : Helper} {p : Phase}

/-- `_cluster_update_reserved` is set. -/
def Pc.marked : Pc → Bool
  | .workers => true
  | .starting => true
  | .leaving reserved _ => reserved
  | _ => false

/-- It will end the reservation, unless the local operation has it. -/
def Pc.owes : Pc → Bool
  | .reserving => true
  | .workers => true
  | .starting => true
  | .leaving reserved handed => reserved && !handed
  | .looking reserved handed => reserved && !handed
  | .ending => true
  | _ => false

def Pc.handed : Pc → Bool
  | .leaving _ handed => handed
  | .looking _ handed => handed
  | _ => false

/-- Someone needs the reservation. -/
def State.needed (s : State) : Prop :=
  s.rollout.holds ∨ s.agent = .waiting ∨
    s.own = true ∧ s.file.helper.isSome = true ∧ s.file.phase.isFinal = false

/-- Someone will end it. -/
def State.owed (s : State) : Prop :=
  s.rollout.owes = true ∨ s.localReserved = true ∧ neglects s.generation s.reader = false

structure Core (s : State) : Prop where
  gens : ∀ g ∈ s.posted, g ≤ s.generation
  cluster : s.clusterReserved = s.rollout.marked
  busy : s.agent.isAway = false → s.rollout.isAway = true
  starter : s.starter = some true → s.rollout = .starting
  alone : s.starter.isSome → s.agent = .none
  unguarded : s.starter.isSome = true → s.own = true → guarded s.file.phase = false
  handed : s.rollout.handed → s.agent = .waiting
  last : s.rollout = .ending → s.localReserved = false
  waiting : s.agent = .waiting → s.own ∧ s.localReserved ∧
    s.file.phase = .pendingTransfers ∧ s.file.helper = none
  broken : s.agent = .broken → s.file.helper = none
  failing : s.agent = .failing → s.file.phase = .failed
  manned : s.agent ≠ .none → s.own
  unowned : s.own → ∀ h ∈ s.helpers, h.active → h.own
  current : ∀ (i : ℕ) (h : Helper), s.helpers[i]? = some h → h.own → h.active →
    s.own ∧ s.file = ⟨h.phase, false, some i⟩ ∧ h.phase ≠ .pendingTransfers
  typed : s.own → guarded s.file.phase ∨ s.file.phase = .rollingBack ∨
    s.file.phase.isFinal
  operation : s.own = true → s.file.helper.isSome = true → s.file.phase.isFinal = false →
    s.localReserved
  reserved : s.localReserved → s.own
  found : s.reader.isSome → s.file.phase.isFinal ∧ s.own
  ending : s.reader = some .ending → s.rollout.holds = false
  fetched : ∀ g, s.reader = some (.fetched g) → g ≤ s.generation ∧
    (g = s.generation → s.rollout.holds = false)
  posted : ∀ g, s.reader = some (.posted g) → g ≤ s.generation ∧
    (g = s.generation → s.reserved = false ∨ s.generation ∈ s.posted)
  needed : s.needed → s.kept
  owed : s.kept → s.owed

structure Inv (s : State) : Prop extends Core s where
  read : s.read = true → s.localReserved = false

theorem Core.tidy (h : Core s) (hread : s.quiet = true → s.read = true → s.localReserved = false) :
    Inv s.tidy := by
  unfold State.tidy
  split
  case isTrue hq => exact ⟨h, hread hq⟩
  case isFalse =>
    refine ⟨{ h with }, fun hr => ?_⟩
    cases hr

theorem Inv.holding (h : Inv s) : Held s where
  rollout hr := h.needed (Or.inl hr)
  pending ha := h.needed (Or.inr (Or.inl ha))
  operation ho hh hf := h.needed (Or.inr (Or.inr ⟨ho, hh, hf⟩))
  helper g hg ho ha := by
    obtain ⟨i, hi⟩ := List.mem_iff_getElem?.mp hg
    obtain ⟨hown, hfile, -⟩ := h.current i g hi ho ha
    rw [Helper.active, Bool.and_eq_true, Bool.not_eq_true'] at ha
    refine h.needed (Or.inr (Or.inr ⟨hown, ?_, ?_⟩))
    · rw [hfile]
      rfl
    · rw [hfile]
      exact ha.2
  released hq hr := by
    have hl := h.read hr
    by_contra hno
    rw [not_or] at hno
    have hkept : s.kept := ⟨(Bool.not_eq_false _).mp hno.1, hno.2⟩
    rw [State.quiet, Bool.and_eq_true, Bool.and_eq_true, decide_eq_true_eq] at hq
    rcases h.owed hkept with ho | ⟨ho, -⟩
    · rw [hq.1.1] at ho
      cases ho
    · cases hl.symm.trans ho

/-! ## The rollout -/

variable {pc : Pc} {c b : Bool}

theorem eq_false_of_imp {a b : Bool} (h : a = true → b = true) (hb : b = false) : a = false := by
  cases a with
  | false => rfl
  | true => exact (h rfl).symm.trans hb

/-- The rollout goes on, and nothing it holds is new. -/
theorem Core.go (h : Core s) (hm : c = pc.marked)
    (hbusy : s.agent.isAway = false → pc.isAway = true)
    (hstarter : s.starter = some true → pc = .starting)
    (hhanded : pc.handed → s.agent = .waiting)
    (hlast : pc = .ending → s.localReserved = false)
    (hholds : pc.holds → s.rollout.holds)
    (howes : s.rollout.owes → s.kept → pc.owes ∨
      s.localReserved = true ∧ neglects s.generation s.reader = false) :
    Core { s with rollout := pc, clusterReserved := c } :=
  { h with
    cluster := hm
    busy := hbusy
    starter := hstarter
    handed := hhanded
    last := hlast
    ending := fun he => eq_false_of_imp hholds (h.ending he)
    fetched := fun g hg => ⟨(h.fetched g hg).1, fun he =>
      eq_false_of_imp hholds ((h.fetched g hg).2 he)⟩
    needed := fun hn => h.needed (hn.imp_left hholds)
    owed := fun hk => (h.owed hk).elim (fun ho => howes ho hk) Or.inr }

theorem State.isIdle_iff : s.isIdle ↔ s.rollout.isAway ∧ s.agent.isAway :=
  Bool.and_eq_true_iff

theorem not_handed (h : pc.isAway = true) : pc.handed = false := by
  cases pc <;> first | rfl | cases h

/-- Nobody needs the reservation, and it ends. -/
theorem Core.endUpdate (h : Core s) (hn : ¬s.needed) : Core s.endUpdate :=
  { h with
    posted := fun g hg => ⟨(h.posted g hg).1, fun _ => Or.inl rfl⟩
    needed := fun hn' => absurd hn' hn
    owed := fun hk => by cases hk.1 }

/-- The present generation is new. -/
theorem Core.fresh (h : Core s) : s.generation + 1 ∉ s.posted := by
  intro hm
  have hle := h.gens _ hm
  omega

theorem Core.reserve (h : Core s) (hr : s.rollout = .preflight) (hidle : s.isIdle)
    (hreader : s.reader ≠ some .ending) :
    Core { s with generation := s.generation + 1, reserved := true, rollout := .reserving } :=
  { h with
    gens := fun g hg => Nat.le_succ_of_le (h.gens g hg)
    cluster := by
      rw [h.cluster, hr]
      rfl
    busy := fun ha => by
      rw [(State.isIdle_iff.mp hidle).2] at ha
      cases ha
    starter := fun hs => by
      rw [h.starter hs] at hr
      cases hr
    handed := nofun
    last := nofun
    ending := fun he => absurd he hreader
    fetched := fun g hg => by
      have hle := (h.fetched g hg).1
      exact ⟨Nat.le_succ_of_le hle, fun he => absurd (he ▸ hle) (Nat.not_succ_le_self _)⟩
    posted := fun g hg => by
      have hle := (h.posted g hg).1
      exact ⟨Nat.le_succ_of_le hle, fun he => absurd (he ▸ hle) (Nat.not_succ_le_self _)⟩
    needed := fun _ => ⟨rfl, h.fresh⟩
    owed := fun _ => Or.inl rfl }

theorem Core.unmark (h : Core s) {reserved handed : Bool}
    (hr : s.rollout = .leaving reserved handed) :
    Core { s with rollout := .looking reserved handed, clusterReserved := false } := by
  refine h.go rfl (fun ha => ?_) (fun hs => ?_) (fun hh => h.handed (by rw [hr]; exact hh))
    nofun nofun (fun ho _ => Or.inl (by rw [hr] at ho; exact ho))
  · have haway := h.busy ha
    rw [hr] at haway
    cases haway
  · have hst := h.starter hs
    cases hr.symm.trans hst

theorem Core.look (h : Core s) {reserved handed : Bool} (hr : s.rollout = .looking reserved handed)
    (hplain : s.rollout = .looking true false → s.localReserved →
      neglects s.generation s.reader = false) :
    Core { s with
      rollout := if reserved && !handed && !s.localReserved then .ending else .idle } := by
  have hcluster := h.cluster
  rw [hr] at hcluster
  have hst : s.starter ≠ some true := by
    intro hs
    have hst := h.starter hs
    cases hr.symm.trans hst
  have hbusy : s.agent.isAway := by
    cases ha : s.agent.isAway with
    | true => rfl
    | false =>
      have haway := h.busy ha
      rw [hr] at haway
      cases haway
  split
  case isTrue he =>
    simp only [Bool.and_eq_true, Bool.not_eq_true'] at he
    refine h.go (c := s.clusterReserved) hcluster (fun ha => ?_) (fun hs => absurd hs hst)
      nofun (fun _ => he.2) nofun (fun _ _ => Or.inl rfl)
    cases hbusy.symm.trans ha
  case isFalse he =>
    refine h.go (c := s.clusterReserved) hcluster (fun _ => rfl) (fun hs => absurd hs hst)
      nofun nofun nofun (fun ho _ => ?_)
    rw [hr] at ho
    simp only [Pc.owes, Bool.and_eq_true, Bool.not_eq_true'] at ho
    obtain ⟨rfl, rfl⟩ := ho
    have hl : s.localReserved := by
      rw [Bool.and_eq_true, not_and, Bool.not_eq_true, Bool.not_eq_false'] at he
      exact he rfl
    exact Or.inr ⟨hl, hplain hr hl⟩

theorem Core.finish (h : Core s) (hr : s.rollout = .ending) :
    Core { s.endUpdate with rollout := .idle } := by
  have hl := h.last hr
  have hneed : ¬s.needed := by
    rintro (hh | ha | ⟨ho, hh, hf⟩)
    · rw [hr] at hh
      cases hh
    · rw [(h.waiting ha).2.1] at hl
      cases hl
    · rw [h.operation ho hh hf] at hl
      cases hl
  have hend := h.endUpdate hneed
  have hcluster := hend.cluster
  change s.clusterReserved = s.rollout.marked at hcluster
  rw [hr] at hcluster
  refine hend.go (c := s.clusterReserved) hcluster (fun _ => rfl) (fun hs => ?_)
    nofun nofun nofun fun _ hk => ?_
  · have hst := h.starter hs
    cases hr.symm.trans hst
  · cases hk.1

variable {a : Act}

theorem Core.stepRollout (h : Core s) (hc : Plain s a) (hs : s.stepRollout a = some s') :
    Core s' := by
  cases a <;> simp only [State.stepRollout, reduceCtorEq] at hs
  case rollout =>
    obtain ⟨hr, rfl⟩ := guard_some hs
    refine h.go (c := s.clusterReserved) ?_ (fun _ => rfl) (fun hst => ?_) nofun
      nofun nofun (fun ho _ => ?_)
    · rw [h.cluster, hr.1]
      rfl
    · rw [h.starter hst] at hr
      cases hr.1
    · rw [hr.1] at ho
      cases ho
  case leavePreflight =>
    obtain ⟨hr, rfl⟩ := guard_some hs
    refine h.go (c := s.clusterReserved) ?_ (fun ha => ?_) (fun hst => ?_)
      nofun nofun nofun (fun ho _ => ?_)
    · rw [h.cluster, hr.1]
      rfl
    · rw [(State.isIdle_iff.mp hr.2).2] at ha
      cases ha
    · rw [h.starter hst] at hr
      cases hr.1
    · rw [hr.1] at ho
      cases ho
  case reserve =>
    obtain ⟨hr, rfl⟩ := guard_some hs
    exact h.reserve hr.1 hr.2 hc
  case mark =>
    obtain ⟨hr, rfl⟩ := guard_some hs
    refine h.go rfl (fun _ => rfl) (fun hst => ?_) nofun
      nofun (fun _ => by rw [hr]; rfl) (fun _ _ => Or.inl rfl)
    rw [h.starter hst] at hr
    cases hr
  case leaveWorkers =>
    obtain ⟨hr, rfl⟩ := guard_some hs
    refine h.go (c := s.clusterReserved) ?_ (fun ha => ?_) (fun hst => ?_)
      nofun nofun (fun _ => by rw [hr.1]; rfl)
      (fun _ _ => Or.inl rfl)
    · rw [h.cluster, hr.1]
      rfl
    · rw [(State.isIdle_iff.mp hr.2).2] at ha
      cases ha
    · rw [h.starter hst] at hr
      cases hr.1
  case callLocal =>
    obtain ⟨hr, rfl⟩ := guard_some hs
    refine h.go (c := s.clusterReserved) ?_ (fun _ => rfl) (fun _ => rfl)
      nofun nofun (fun _ => by rw [hr.1]; rfl)
      (fun _ _ => Or.inl rfl)
    rw [h.cluster, hr.1]
    rfl
  case abandon =>
    obtain ⟨hr, rfl⟩ := guard_some hs
    refine h.go (c := s.clusterReserved) ?_ (fun ha => ?_) (fun hst => absurd hst hr.2.1)
      nofun nofun (fun _ => by rw [hr.1]; rfl)
      (fun _ _ => Or.inl rfl)
    · rw [h.cluster, hr.1]
      rfl
    · rw [(State.isIdle_iff.mp hr.2.2).2] at ha
      cases ha
  case unmark =>
    split at hs
    case h_1 hr =>
      cases hs
      exact h.unmark hr
    case h_2 => cases hs
  case look =>
    split at hs
    case h_1 hr =>
      cases hs
      exact h.look hr hc
    case h_2 => cases hs
  case finish =>
    obtain ⟨hr, rfl⟩ := guard_some hs
    exact h.finish hr

/-! ## A reading -/

/-- A reading leaves the state file, or finds that the operation is over. -/
theorem reconciled_cases (s : State) (kept : Bool) : s.reconciled kept = s.file ∨
    (s.agent = .none ∨ s.file.phase ≠ .pendingTransfers) ∧
    (s.helperAlive = false ∨ s.file.served = true) ∧ guarded s.file.phase = true ∧
    ((s.reconciled kept) = { s.file with phase := .succeeded } ∨
      (s.reconciled kept) = { s.file with phase := .failed }) ∨
    s.file.phase = .pendingTransfers ∧ s.agent = .none ∧
      s.reconciled kept = { s.file with phase := .failed } := by
  unfold State.reconciled
  dsimp only
  split
  case isTrue hp =>
    split
    case isTrue ha => exact Or.inr (Or.inr ⟨hp, ha, rfl⟩)
    case isFalse => exact Or.inl rfl
  case isFalse hp =>
    split
    case isFalse => exact Or.inl rfl
    case isTrue hphase =>
      have hguard : guarded s.file.phase := by
        rcases hphase with he | he | he <;> rw [he] <;> rfl
      split
      case isTrue => exact Or.inl rfl
      case isFalse =>
        split
        case isTrue hinst =>
          rw [Bool.and_eq_true] at hinst
          exact Or.inr (Or.inl ⟨Or.inr hp, Or.inr hinst.2, hguard, Or.inl rfl⟩)
        case isFalse =>
          split
          case isTrue => exact Or.inl rfl
          case isFalse hal =>
            have hdead : s.helperAlive = false := (Bool.not_eq_true _).mp hal
            exact Or.inr (Or.inl ⟨Or.inr hp, Or.inl hdead, hguard, Or.inr rfl⟩)

/-- The state file says that the operation is over. -/
theorem Core.settleFile (h : Core s) (hw : s.agent ≠ .waiting) (hp : p = .succeeded ∨ p = .failed)
    (hf : s.agent = .failing → p = .failed)
    (hno : ∀ (i : ℕ) (h : Helper), s.helpers[i]? = some h → h.own = true → h.active = false) :
    Core { s with file := { s.file with phase := p } } := by
  have hfinal : p.isFinal := by rcases hp with rfl | rfl <;> rfl
  have hguard : guarded p = false := by rcases hp with rfl | rfl <;> rfl
  exact
    { h with
      unguarded := fun _ _ => hguard
      waiting := fun ha => absurd ha hw
      failing := hf
      current := fun i g hi ho ha => by
        rw [hno i g hi ho] at ha
        cases ha
      typed := fun _ => Or.inr (Or.inr hfinal)
      operation := fun _ _ hn => by
        cases hfinal.symm.trans hn
      found := fun hr => ⟨hfinal, (h.found hr).2⟩
      needed := fun hn => h.needed (by
        rcases hn with hh | ha | ⟨-, -, hn⟩
        · exact Or.inl hh
        · exact Or.inr (Or.inl ha)
        · rw [hfinal] at hn
          cases hn) }

theorem Core.reconcile (h : Core s) (kept : Bool) :
    Core { s with file := s.reconciled kept } := by
  rcases reconciled_cases s kept with he | ⟨hag, hal, hg, he⟩ | ⟨hp, ha, he⟩
  · rw [he]
    exact h
  · have hw : s.agent ≠ .waiting := by
      intro hw
      rcases hag with hag | hag
      · cases hw.symm.trans hag
      · exact hag (h.waiting hw).2.2.1
    have hno : ∀ (i : ℕ) (g : Helper), s.helpers[i]? = some g → g.own →
        g.active = false := by
      intro i g hi ho
      cases hact : g.active with
      | false => rfl
      | true =>
        obtain ⟨-, hfile, -⟩ := h.current i g hi ho hact
        rw [Helper.active, Bool.and_eq_true] at hact
        rcases hal with hal | hal
        · rw [State.helperAlive, hfile] at hal
          dsimp only at hal
          rw [hi, Option.any_some, hact.1] at hal
          cases hal
        · rw [hfile] at hal
          cases hal
    have hf : s.agent ≠ .failing := by
      intro hf
      rw [h.failing hf] at hg
      cases hg
    rcases he with he | he
    · rw [he]
      exact h.settleFile hw (Or.inl rfl) (fun ha => absurd ha hf) hno
    · rw [he]
      exact h.settleFile hw (Or.inr rfl) (fun _ => rfl) hno
  · rw [he]
    refine h.settleFile (fun hw => ?_) (Or.inr rfl) (fun _ => rfl) fun i g hi ho => ?_
    · cases ha.symm.trans hw
    · cases hact : g.active with
      | false => rfl
      | true =>
        obtain ⟨-, hfile, hne⟩ := h.current i g hi ho hact
        rw [hfile] at hp
        exact absurd hp hne

/-- The local operation is over, and gives up its share. -/
theorem Core.drop (h : Core s) (hw : s.agent ≠ .waiting)
    (hop : s.own → s.file.helper.isSome → s.file.phase.isFinal)
    (hr : s.rollout ≠ .reserving) :
    Core { s.endUnlessCluster with localReserved := false } := by
  have hhanded : s.rollout.handed = false := by
    cases hh : s.rollout.handed with
    | false => rfl
    | true => exact absurd (h.handed hh) hw
  have hnop : ¬(s.own = true ∧ s.file.helper.isSome = true ∧ s.file.phase.isFinal = false) := by
    rintro ⟨ho, hh, hf⟩
    rw [hop ho hh] at hf
    cases hf
  unfold State.endUnlessCluster
  split
  case isTrue hc =>
    exact
      { h with
        last := fun _ => rfl
        waiting := fun ha => absurd ha hw
        operation := fun ho hh hf => absurd ⟨ho, hh, hf⟩ hnop
        reserved := nofun
        owed := fun _ => Or.inl (by
          have hm := h.cluster.symm.trans hc
          cases hpc : s.rollout <;> rw [hpc] at hm hhanded <;>
            simp_all [Pc.marked, Pc.owes, Pc.handed]) }
  case isFalse hc =>
    have hneed : ¬s.needed := by
      rintro (hh | ha | hn)
      · have hm := h.cluster.symm.trans ((Bool.not_eq_true _).mp hc)
        cases hpc : s.rollout <;> rw [hpc] at hm hh hr <;> simp_all [Pc.marked, Pc.holds]
      · exact hw ha
      · exact hnop hn
    have hend := h.endUpdate hneed
    exact
      { hend with
        last := fun _ => rfl
        waiting := fun ha => absurd ha hw
        operation := fun ho hh hf => absurd ⟨ho, hh, hf⟩ hnop
        reserved := nofun
        owed := fun hk => by cases hk.1 }

/-- A reading on the loop finds what it finds, and releases what it has to. -/
theorem Core.readOnLoop (h : Core s) (hidle : s.isIdle) (kept : Bool) :
    Core (s.readOnLoop kept) := by
  have hr : s.rollout ≠ .reserving := by
    intro hr
    have haway := (State.isIdle_iff.mp hidle).1
    rw [hr] at haway
    cases haway
  have hrec : Core { s with file := s.reconciled kept, read := true } := { h.reconcile kept with }
  unfold State.readOnLoop
  dsimp only
  split
  case isTrue hf =>
    rw [Bool.and_eq_true] at hf
    refine hrec.drop (fun hw => ?_) (fun _ _ => hf.1) hr
    have hpending := (hrec.waiting hw).2.2.1
    rw [hpending] at hf
    cases hf.1
  case isFalse => exact hrec

/-! ## The local operation -/

theorem Core.answer (h : Core { s with starter := none }) {handed : Bool}
    (hb : b → s.rollout = .starting) (hidle : s.isIdle)
    (hhanded : handed → s.agent = .waiting ∧ s.reader = none) :
    Core (s.answer b handed) := by
  cases b with
  | false => exact h
  | true =>
    have hst := hb rfl
    refine h.go (c := s.clusterReserved) ?_ (fun ha => ?_)
      nofun (fun hh => (hhanded hh).1) nofun
      (fun _ => ?_) (fun _ _ => ?_)
    · have hc := h.cluster
      rw [hc, hst]
      rfl
    · rw [show s.agent.isAway = true from (State.isIdle_iff.mp hidle).2] at ha
      cases ha
    · change s.rollout.holds = true
      rw [hst]
      rfl
    · cases handed with
      | false => exact Or.inl rfl
      | true =>
        obtain ⟨ha, hr⟩ := hhanded rfl
        refine Or.inr ⟨(h.waiting ha).2.1, ?_⟩
        rw [hr]
        rfl

theorem Core.noStarter (h : Core s) : Core { s with starter := none } :=
  { h with
    starter := nofun
    alone := nofun
    unguarded := nofun }

theorem Core.begin (h : Core s) (hidle : s.isIdle)
    (hb : b → s.rollout = .starting) (kept : Bool) : Core (s.begin b kept) := by
  have hread := h.readOnLoop hidle kept
  have hsame : (s.readOnLoop kept).rollout = s.rollout ∧ (s.readOnLoop kept).agent = s.agent ∧
      (s.readOnLoop kept).starter = s.starter ∧ (s.readOnLoop kept).isIdle = s.isIdle := by
    unfold State.readOnLoop State.endUnlessCluster State.endUpdate State.isIdle
    dsimp only
    split
    · split <;> exact ⟨rfl, rfl, rfl, rfl⟩
    · exact ⟨rfl, rfl, rfl, rfl⟩
  obtain ⟨hrollout, hagent, hstarter, hidle'⟩ := hsame
  unfold State.begin
  dsimp only
  split
  case isTrue =>
    exact hread.noStarter.answer (fun he => hrollout.trans (hb he)) (hidle'.trans hidle)
      nofun
  case isFalse hguard =>
    have hg := (Bool.not_eq_true _).mp hguard
    have haway : (s.readOnLoop kept).agent.isAway := by
      rw [hagent]
      exact (State.isIdle_iff.mp hidle).2
    exact
      { hread with
        starter := fun hs => hrollout.trans (hb (Option.some.inj hs))
        alone := fun _ => by
          cases ha : (s.readOnLoop kept).agent with
          | none => rfl
          | waiting =>
            rw [(hread.waiting ha).2.2.1] at hg
            cases hg
          | broken | failing =>
            rw [ha] at haway
            cases haway
        unguarded := fun _ _ => hg }

theorem Core.starting (h : Core s) (hs : s.starter = some b) : b → s.rollout = .starting := by
  rintro rfl
  exact h.starter hs

/-- No helper is at work. -/
theorem Core.inactive (hset : s.settled) (hi : s.helpers[i]? = some h) : h.active = false :=
  hset.1 h (List.mem_of_getElem? hi)

theorem Core.upToDate (h : Core s) (hs : s.starter = some b) (hidle : s.isIdle)
    (hset : s.settled) :
    Core ({ s with file := ⟨.succeeded, true, none⟩ }.answer b false) := by
  have hnone : s.agent = .none := h.alone (by rw [hs]; rfl)
  have hfile : Core { s with file := ⟨.succeeded, true, none⟩ } :=
    { h with
      unguarded := fun _ _ => rfl
      waiting := fun ha => by
        cases ha.symm.trans hnone
      broken := fun _ => rfl
      failing := fun ha => by
        cases ha.symm.trans hnone
      current := fun i g hi _ ha => by
        rw [Core.inactive hset hi] at ha
        cases ha
      typed := fun _ => Or.inr (Or.inr rfl)
      operation := nofun
      found := fun hr => ⟨rfl, (h.found hr).2⟩
      needed := fun hn => h.needed (by
        rcases hn with hh | ha | ⟨-, hh, -⟩
        · exact Or.inl hh
        · exact Or.inr (Or.inl ha)
        · cases hh) }
  exact hfile.noStarter.answer (h.starting hs) hidle nofun

/-- The reservation of a local operation. -/
theorem Core.reserveLocal (h : Core s) (hs : s.starter = some b) (hidle : s.isIdle)
    (hreader : s.reader = none) (hset : s.settled) :
    Core ({ s.reserveUpdate with
      localReserved := true
      file := ⟨.pendingTransfers, false, none⟩
      agent := .waiting
      own := true }.answer b true) := by
  have hpc := (State.isIdle_iff.mp hidle).1
  have hnew : Core { s with
      generation := s.generation + 1
      reserved := true
      localReserved := true
      file := ⟨.pendingTransfers, false, none⟩
      agent := .waiting
      own := true
      starter := none } :=
    { gens := fun g hg => Nat.le_succ_of_le (h.gens g hg)
      cluster := h.cluster
      busy := nofun
      starter := nofun
      alone := nofun
      unguarded := nofun
      handed := fun _ => rfl
      last := fun hp => by
        rw [show s.rollout = .ending from hp] at hpc
        cases hpc
      waiting := fun _ => ⟨rfl, rfl, rfl, rfl⟩
      broken := fun _ => rfl
      failing := nofun
      manned := fun _ => rfl
      unowned := fun _ g hg ha => by
        rw [hset.1 g hg] at ha
        cases ha
      current := fun i g hi _ ha => by
        rw [Core.inactive hset hi] at ha
        cases ha
      typed := fun _ => Or.inl rfl
      operation := nofun
      reserved := fun _ => rfl
      found := fun hr => by
        rw [hreader] at hr
        cases hr
      ending := fun he => by
        cases he.symm.trans hreader
      fetched := fun g he => by
        cases he.symm.trans hreader
      posted := fun g he => by
        cases he.symm.trans hreader
      needed := fun _ => ⟨rfl, h.fresh⟩
      owed := fun _ => Or.inr ⟨rfl, by
        rw [hreader]
        rfl⟩ }
  refine Core.answer hnew (h.starting hs) ?_ fun _ => ⟨rfl, hreader⟩
  exact State.isIdle_iff.mpr ⟨hpc, rfl⟩

theorem marked_of_holds (ha : pc.isAway) (hh : pc.holds) : pc.marked := by
  cases pc <;> first | rfl | exact absurd ha Bool.false_ne_true | cases hh

theorem owes_of_marked (ha : pc.isAway) (hm : pc.marked) : pc.owes := by
  cases pc <;> first | rfl | exact absurd ha Bool.false_ne_true | cases hm

/-- The reservation was made, and given back unless the rollout has it. -/
def State.givenBack (s : State) (wrote : Bool) : State :=
  { s with
    generation := s.generation + 1
    reserved := s.clusterReserved
    localReserved := false
    file := if wrote then ⟨.pendingTransfers, false, none⟩ else s.file }

theorem Core.reserveFails (h : Core s) (hs : s.starter = some b) (hidle : s.isIdle)
    (hreader : s.reader = none) (hset : s.settled) (wrote : Bool) :
    Core (({ s.reserveUpdate with
      localReserved := false
      file := if wrote then ⟨.pendingTransfers, false, none⟩ else s.file
      }.endUnlessCluster).answer b false) := by
  have hpc := (State.isIdle_iff.mp hidle).1
  have hnone : s.agent = .none := h.alone (by rw [hs]; rfl)
  have hfinal : s.own → s.file.helper.isSome → s.file.phase.isFinal := by
    intro ho _
    rcases h.typed ho with hg | hg | hg
    · rw [h.unguarded (by rw [hs]; rfl) ho] at hg
      cases hg
    · exact absurd hg hset.2
    · exact hg
  have hmarked : s.rollout.holds → s.clusterReserved := fun hh => by
    rw [h.cluster]
    exact marked_of_holds hpc hh
  have howes : s.clusterReserved → s.rollout.owes := fun hc => by
    rw [h.cluster] at hc
    exact owes_of_marked hpc hc
  have hnew : Core { s.givenBack wrote with starter := none } :=
    { h with
      gens := fun g hg => Nat.le_succ_of_le (h.gens g hg)
      starter := nofun
      alone := nofun
      unguarded := nofun
      last := fun _ => rfl
      waiting := fun ha => by
        cases ha.symm.trans hnone
      broken := fun ha => by
        cases ha.symm.trans hnone
      failing := fun ha => by
        cases ha.symm.trans hnone
      current := fun i g hi _ ha => by
        rw [Core.inactive hset hi] at ha
        cases ha
      typed := fun ho => by
        cases wrote with
        | true => exact Or.inl rfl
        | false => exact h.typed ho
      operation := fun ho hh hf => by
        cases wrote with
        | true => cases hh
        | false =>
          have hfin := hfinal ho hh
          cases hf.symm.trans hfin
      reserved := nofun
      found := fun hr => by
        change s.reader.isSome = true at hr
        rw [hreader] at hr
        cases hr
      fetched := fun g he => by
        cases he.symm.trans hreader
      posted := fun g he => by
        cases he.symm.trans hreader
      needed := fun hn => by
        refine ⟨?_, h.fresh⟩
        rcases hn with hh | ha | ⟨ho, hh, hf⟩
        · exact hmarked hh
        · cases ha.symm.trans hnone
        · cases wrote with
          | true => cases hh
          | false =>
            have hfin := hfinal ho hh
            cases hf.symm.trans hfin
      owed := fun hk => Or.inl (howes hk.1) }
  have hans := Core.answer (s := s.givenBack wrote) hnew (h.starting hs) (State.isIdle_iff.mpr ⟨hpc, hnone ▸ rfl⟩)
    fun (he : false) => by cases he
  convert hans using 1
  unfold State.endUnlessCluster State.endUpdate State.reserveUpdate State.answer State.givenBack
  dsimp only
  split
  case isTrue hc => rw [hc]
  case isFalse hc => rw [(Bool.not_eq_true _).mp hc]

/-- While it waits, and after the launch raised, no helper of this process is at work. -/
theorem Core.unlaunched (h : Core s) (ha : s.agent = .waiting ∨ s.agent = .broken)
    {g : Helper} (hi : s.helpers[i]? = some g) (ho : g.own = true) : g.active = false := by
  have hnone : s.file.helper = none := by
    rcases ha with ha | ha
    · exact (h.waiting ha).2.2.2
    · exact h.broken ha
  cases hact : g.active with
  | false => rfl
  | true =>
    obtain ⟨-, hfile, -⟩ := h.current i g hi ho hact
    rw [hfile] at hnone
    cases hnone

theorem Core.noStart (h : Core s) (ha : s.agent ≠ .none) : s.starter.isSome = false := by
  cases hs : s.starter.isSome with
  | false => rfl
  | true => exact absurd (h.alone hs) ha

theorem Core.launch (h : Core s) (ha : s.agent = .waiting) (hidle : s.isIdle)
    (hreader : s.reader = none) :
    Core { s with
      agent := .none
      file := ⟨.accepted, false, some s.helpers.length⟩
      helpers := s.helpers ++ [⟨.accepted, true, true⟩] } := by
  obtain ⟨hown, hl, -, -⟩ := h.waiting ha
  have hpc := (State.isIdle_iff.mp hidle).1
  have hst : s.starter.isSome = false := h.noStart (by rw [ha]; exact nofun)
  exact
    { h with
      busy := nofun
      alone := fun _ => rfl
      unguarded := fun he => by
        cases he.symm.trans hst
      handed := fun hh => by
        rw [not_handed hpc] at hh
        cases hh
      waiting := nofun
      broken := nofun
      failing := nofun
      manned := fun he => absurd rfl he
      unowned := fun _ g hg hact => by
        rcases List.mem_append.mp hg with hg | hg
        · exact h.unowned hown g hg hact
        · rw [List.mem_singleton.mp hg]
      current := fun i g hi ho hact => by
        rcases Table.append_cases hi with hi | ⟨rfl, rfl⟩
        · rw [h.unlaunched (Or.inl ha) hi ho] at hact
          cases hact
        · exact ⟨hown, rfl, nofun⟩
      typed := fun _ => Or.inl rfl
      operation := fun _ _ _ => hl
      found := fun hr => by
        rw [show s.reader = none from hreader] at hr
        cases hr
      needed := fun _ => h.needed (Or.inr (Or.inl ha)) }

theorem Core.launchFails (h : Core s) (ha : s.agent = .waiting) (hidle : s.isIdle)
    (hreader : s.reader = none) :
    Core { s with agent := .broken, file := ⟨.accepted, false, none⟩ } := by
  obtain ⟨hown, -, -, -⟩ := h.waiting ha
  have hpc := (State.isIdle_iff.mp hidle).1
  have hst : s.starter.isSome = false := h.noStart (by rw [ha]; exact nofun)
  exact
    { h with
      busy := fun _ => hpc
      alone := fun he => by
        cases he.symm.trans hst
      unguarded := fun he => by
        cases he.symm.trans hst
      handed := fun hh => by
        rw [not_handed hpc] at hh
        cases hh
      waiting := nofun
      broken := fun _ => rfl
      failing := nofun
      manned := fun _ => hown
      current := fun i g hi ho hact => by
        rw [h.unlaunched (Or.inl ha) hi ho] at hact
        cases hact
      typed := fun _ => Or.inl rfl
      operation := nofun
      found := fun hr => by
        rw [show s.reader = none from hreader] at hr
        cases hr
      needed := fun _ => h.needed (Or.inr (Or.inl ha)) }

theorem Core.fail (h : Core s) (ha : s.agent = .broken ∨ s.agent = .waiting ∧ s.isIdle) :
    Core { s with agent := .failing, file := { s.file with phase := .failed } } := by
  have hagent : s.agent = .waiting ∨ s.agent = .broken := ha.symm.imp_left And.left
  have hne : s.agent ≠ .none := by
    rcases hagent with he | he <;> rw [he] <;> exact nofun
  have hst := h.noStart hne
  have hpc : s.rollout.isAway := by
    rcases ha with ha | ha
    · exact h.busy (by rw [ha]; rfl)
    · exact (State.isIdle_iff.mp ha.2).1
  exact
    { h with
      busy := fun _ => hpc
      alone := fun he => by
        cases he.symm.trans hst
      unguarded := fun he => by
        cases he.symm.trans hst
      handed := fun hh => by
        rw [not_handed hpc] at hh
        cases hh
      waiting := nofun
      broken := nofun
      failing := fun _ => rfl
      manned := fun _ => h.manned hne
      current := fun i g hi ho hact => by
        rw [h.unlaunched hagent hi ho] at hact
        cases hact
      typed := fun _ => Or.inr (Or.inr rfl)
      operation := nofun
      found := fun hr => ⟨rfl, (h.found hr).2⟩
      needed := fun hn => h.needed (by
        rcases hn with hh | he | ⟨-, -, hf⟩
        · exact Or.inl hh
        · cases he
        · cases hf) }

/-- The task of the local operation is over, and no rollout counts on it. -/
theorem Core.leave (h : Core s) (hh : s.rollout.handed = false) :
    Core { s with agent := .none } :=
  { h with
    busy := nofun
    alone := fun _ => rfl
    handed := fun he => by
      cases hh.symm.trans he
    waiting := nofun
    broken := nofun
    failing := nofun
    manned := fun he => absurd rfl he
    needed := fun hn => h.needed (by
      rcases hn with hr | he | ho
      · exact Or.inl hr
      · cases he
      · exact Or.inr (Or.inr ho)) }

theorem Core.settle (h : Core s) (ha : s.agent = .failing) :
    Core ({ s with agent := .none, localReserved := false }.endUnlessCluster) := by
  have hpc : s.rollout.isAway := h.busy (by rw [ha]; rfl)
  have hfinal : s.file.phase.isFinal := by
    rw [h.failing ha]
    rfl
  have hdrop := (h.leave (not_handed hpc)).drop nofun (fun _ _ => hfinal)
    fun hr => by
      rw [show s.rollout = .reserving from hr] at hpc
      cases hpc
  convert hdrop using 1
  unfold State.endUnlessCluster State.endUpdate
  split <;> rfl

/-! ## The reading of a thread -/

theorem Core.find (h : Core s) (hf : s.file.phase.isFinal) (ho : s.own) :
    Core { s with reader := some .found } :=
  { h with
    found := fun _ => ⟨hf, ho⟩
    ending := nofun
    fetched := fun g he => by cases he
    posted := fun g he => by cases he
    owed := fun hk => (h.owed hk).imp_right fun hl => ⟨hl.1, rfl⟩ }

/-- While a thread releases, neither the local operation nor its helper needs the reservation. -/
theorem Core.holds_of_needed (h : Core s) (hr : s.reader.isSome) (hn : s.needed) :
    s.rollout.holds := by
  obtain ⟨hf, -⟩ := h.found hr
  rcases hn with hh | ha | ⟨-, -, hno⟩
  · exact hh
  · rw [(h.waiting ha).2.2.1] at hf
    cases hf
  · cases hf.symm.trans hno

theorem Core.unhanded (h : Core s) (hr : s.reader.isSome = true) : s.rollout.handed = false := by
  cases hh : s.rollout.handed with
  | false => rfl
  | true =>
    obtain ⟨hf, -⟩ := h.found hr
    rw [(h.waiting (h.handed hh)).2.2.1] at hf
    cases hf

theorem owes_of_not_handed (hm : pc.marked = true) (hh : pc.handed = false) : pc.owes = true := by
  cases pc with
  | leaving reserved handed =>
    rw [Pc.owes, show reserved = true from hm, show handed = false from hh]
    rfl
  | workers => rfl
  | starting => rfl
  | _ => cases hm

theorem holds_of_not_marked (hm : pc.marked = false) (hr : pc ≠ .reserving) : pc.holds = false := by
  cases pc with
  | leaving reserved handed => exact hm
  | reserving => exact absurd rfl hr
  | workers => cases hm
  | starting => cases hm
  | _ => rfl

theorem Core.lookCluster (h : Core s) (hr : s.reader = some .found)
    (hplain : s.rollout ≠ .reserving) :
    Core { s with reader := some (if s.clusterReserved then .skipped else .ending) } := by
  have hsome : s.reader.isSome := by
    rw [hr]
    rfl
  split
  case isTrue hc =>
    have hm := h.cluster.symm.trans hc
    exact
      { h with
        found := fun _ => h.found hsome
        ending := nofun
        fetched := fun g he => by cases he
        posted := fun g he => by cases he
        owed := fun _ => Or.inl (owes_of_not_handed hm (h.unhanded hsome)) }
  case isFalse hc =>
    have hm := h.cluster.symm.trans ((Bool.not_eq_true _).mp hc)
    exact
      { h with
        found := fun _ => h.found hsome
        ending := fun _ => holds_of_not_marked hm hplain
        fetched := fun g he => by cases he
        posted := fun g he => by cases he
        owed := fun hk => (h.owed hk).imp_right fun hl => ⟨hl.1, rfl⟩ }

theorem Core.fetch (h : Core s) (hr : s.reader = some .ending) :
    Core { s with reader := some (.fetched s.generation) } :=
  { h with
    found := fun _ => h.found (by rw [hr]; rfl)
    ending := nofun
    fetched := fun g he => by
      cases he
      exact ⟨Nat.le_refl _, fun _ => h.ending hr⟩
    posted := fun g he => by cases he
    owed := fun hk => (h.owed hk).imp_right fun hl => ⟨hl.1, decide_eq_false fun hne => hne rfl⟩ }

theorem Core.post (h : Core s) (hr : s.reader = some (.fetched g)) :
    Core { s with posted := s.posted ++ [g], reader := some (.posted g) } := by
  obtain ⟨hle, hholds⟩ := h.fetched g hr
  have hsome : s.reader.isSome := by
    rw [hr]
    rfl
  exact
    { h with
      gens := fun g' hg => by
        rcases List.mem_append.mp hg with hg | hg
        · exact h.gens g' hg
        · rw [List.mem_singleton.mp hg]
          exact hle
      found := fun _ => h.found hsome
      ending := nofun
      fetched := fun g' he => by cases he
      posted := fun g' he => by
        cases he
        refine ⟨hle, fun hg => Or.inr (List.mem_append.mpr (Or.inr ?_))⟩
        rw [List.mem_singleton]
        exact hg.symm
      needed := fun hn => by
        have hneed : s.needed := hn
        obtain ⟨hres, hno⟩ := h.needed hneed
        refine ⟨hres, fun hm => ?_⟩
        rcases List.mem_append.mp hm with hm | hm
        · exact hno hm
        · have hfalse := hholds (List.mem_singleton.mp hm).symm
          rw [h.holds_of_needed hsome hneed] at hfalse
          cases hfalse
      owed := fun hk => by
        have hold : s.kept := ⟨hk.1, fun hm => hk.2 (List.mem_append.mpr (Or.inl hm))⟩
        refine (h.owed hold).imp_right fun hl => ⟨hl.1, ?_⟩
        rw [hr] at hl
        exact hl.2 }

theorem Core.clear (h : Core s) (hr : (∃ g, s.reader = some (.posted g)) ∨ s.reader = some .skipped) :
    Core { s with localReserved := false, reader := none, read := true } := by
  have hsome : s.reader.isSome := by
    rcases hr with ⟨g, hr⟩ | hr <;> rw [hr] <;> rfl
  obtain ⟨hf, ho⟩ := h.found hsome
  exact
    { h with
      last := fun _ => rfl
      waiting := fun ha => by
        rw [(h.waiting ha).2.2.1] at hf
        cases hf
      operation := fun _ _ hno => by
        cases hno.symm.trans hf
      reserved := nofun
      found := nofun
      ending := nofun
      fetched := fun g he => by cases he
      posted := fun g he => by cases he
      owed := fun hk => by
        have hkept : s.kept := hk
        rcases h.owed hkept with howes | ⟨-, hn⟩
        · exact Or.inl howes
        · rcases hr with ⟨g, hr⟩ | hr
          · rw [hr] at hn
            rcases (h.posted g hr).2 (not_ne_iff.mp (of_decide_eq_false hn)) with hres | hm
            · rw [hkept.1] at hres
              cases hres
            · exact absurd hm hkept.2
          · rw [hr] at hn
            cases hn }

theorem Core.deliver (h : Core s) {rest : List ℕ} (hp : s.posted = g :: rest) :
    Core (if g = s.generation then { s.endUpdate with posted := rest }
      else { s with posted := rest }) := by
  have hsub : ∀ g' ∈ rest, g' ≤ s.generation := fun g' hg =>
    h.gens g' (by rw [hp]; exact List.mem_cons_of_mem g hg)
  split
  case isTrue hg =>
    have hneed : ¬s.needed := fun hn => (h.needed hn).2 (by rw [hp, hg]; exact List.mem_cons_self)
    have hend := h.endUpdate hneed
    exact
      { hend with
        gens := hsub
        posted := fun g' hg' => ⟨(h.posted g' hg').1, fun _ => Or.inl rfl⟩
        needed := fun hn => absurd hn hneed
        owed := fun hk => by cases hk.1 }
  case isFalse hg =>
    have hmem : s.generation ∈ s.posted ↔ s.generation ∈ rest := by
      rw [hp, List.mem_cons]
      exact or_iff_right fun he => hg he.symm
    exact
      { h with
        gens := hsub
        posted := fun g' hg' => ⟨(h.posted g' hg').1, fun he =>
          ((h.posted g' hg').2 he).imp_right hmem.mp⟩
        needed := fun hn => ⟨(h.needed hn).1, fun hm => (h.needed hn).2 (hmem.mpr hm)⟩
        owed := fun hk => h.owed ⟨hk.1, fun hm => hk.2 (hmem.mp hm)⟩ }

/-! ## The helpers -/

theorem follows_left {q : Phase} (hf : follows p q) :
    p.isFinal = false ∧ p ≠ .pendingTransfers := by
  cases p with
  | accepted | staging | restarting | rollingBack => exact ⟨rfl, nofun⟩
  | _ => cases hf

theorem follows_right {q : Phase} (hf : follows p q) :
    (guarded q ∨ q = .rollingBack ∨ q.isFinal) ∧ q ≠ .pendingTransfers ∧
      (guarded p = false → guarded q = false) := by
  cases p <;> cases q <;> first | exact absurd hf Bool.false_ne_true | decide

theorem Core.writes (h : Core s) {g : Helper} (hi : s.helpers[i]? = some g) (hal : g.alive)
    (hf : follows g.phase p) :
    Core { s with
      helpers := s.helpers.set i { g with phase := p }
      file := { s.file with phase := p } } := by
  obtain ⟨hsrc, hpend⟩ := follows_left hf
  obtain ⟨htyped, hpend', hguard⟩ := follows_right hf
  have hact : g.active := by
    rw [Helper.active, hal, hsrc]
    rfl
  by_cases hno : s.own ≠ true
  case pos =>
    have hnone : s.agent = .none := by
      by_contra hne
      exact hno (h.manned hne)
    exact
      { h with
        unguarded := fun _ ho => absurd ho hno
        waiting := fun ha => absurd (h.waiting ha).1 hno
        failing := fun ha => by
          cases ha.symm.trans hnone
        unowned := fun ho => absurd ho hno
        current := fun j g' hj ho ha => by
          rcases Table.set_cases hj with ⟨rfl, rfl⟩ | ⟨-, hj⟩
          · exact absurd (h.current _ g hi ho hact).1 hno
          · exact absurd (h.current j g' hj ho ha).1 hno
        typed := fun ho => absurd ho hno
        operation := fun ho => absurd ho hno
        found := fun hr => absurd (h.found hr).2 hno
        needed := fun hn => h.needed (by
          rcases hn with hh | ha | ⟨ho, -, -⟩
          · exact Or.inl hh
          · exact Or.inr (Or.inl ha)
          · exact absurd ho hno) }
  case neg =>
    have hown := not_ne_iff.mp hno
    have hgown := h.unowned hown g (List.mem_of_getElem? hi) hact
    obtain ⟨-, hfile, -⟩ := h.current i g hi hgown hact
    have hphase : s.file.phase = g.phase := by rw [hfile]
    have hhelper : s.file.helper = some i := by rw [hfile]
    have hwritten : ({ s.file with phase := p } : File) = ⟨p, false, some i⟩ := by rw [hfile]
    exact
      { h with
        unguarded := fun hs ho => hguard (by rw [← hphase]; exact h.unguarded hs ho)
        waiting := fun ha => by
          rw [(h.waiting ha).2.2.2] at hhelper
          cases hhelper
        failing := fun ha => by
          rw [h.failing ha] at hphase
          rw [← hphase] at hsrc
          cases hsrc
        unowned := fun _ g' hg ha => by
          obtain ⟨j, hj⟩ := List.mem_iff_getElem?.mp hg
          rcases Table.set_cases hj with ⟨-, rfl⟩ | ⟨-, hj⟩
          · exact hgown
          · exact h.unowned hown g' (List.mem_of_getElem? hj) ha
        current := fun j g' hj ho ha => by
          rcases Table.set_cases hj with ⟨rfl, rfl⟩ | ⟨hne, hj⟩
          · exact ⟨hown, hwritten, hpend'⟩
          · obtain ⟨-, hother, -⟩ := h.current j g' hj ho ha
            rw [hother] at hhelper
            exact absurd (Option.some.inj hhelper) hne
        typed := fun _ => htyped
        operation := fun ho hh _ => h.operation ho hh (by rw [hphase]; exact hsrc)
        found := fun hr => by
          have hfin := (h.found hr).1
          rw [hphase, hsrc] at hfin
          cases hfin
        needed := fun hn => h.needed (by
          rcases hn with hh | ha | ⟨ho, hh, -⟩
          · exact Or.inl hh
          · exact Or.inr (Or.inl ha)
          · exact Or.inr (Or.inr ⟨ho, hh, by rw [hphase]; exact hsrc⟩)) }

theorem Core.dies (h : Core s) (g : Helper) :
    Core { s with helpers := s.helpers.set i { g with alive := false } } :=
  { h with
    unowned := fun ho g' hg ha => by
      obtain ⟨j, hj⟩ := List.mem_iff_getElem?.mp hg
      rcases Table.set_cases hj with ⟨-, rfl⟩ | ⟨-, hj⟩
      · cases ha
      · exact h.unowned ho g' (List.mem_of_getElem? hj) ha
    current := fun j g' hj ho ha => by
      rcases Table.set_cases hj with ⟨-, rfl⟩ | ⟨-, hj⟩
      · cases ha
      · exact h.current j g' hj ho ha }

/-! ## Steps and runs -/

theorem Core.stepLocal (h : Core s) (hc : Plain s a) (hs : s.stepLocal a = some s') : Core s' := by
  cases a <;> simp only [State.stepLocal, reduceCtorEq] at hs
  case begin byRollout kept =>
    obtain ⟨hg, rfl⟩ := guard_some hs
    exact h.begin hg.2.1 hg.2.2.2 kept
  case giveUp =>
    split at hs
    case h_2 => cases hs
    case h_1 b hst =>
      obtain ⟨hidle, rfl⟩ := guard_some hs
      exact h.noStarter.answer (h.starting hst) hidle nofun
  case upToDate =>
    split at hs
    case h_2 => cases hs
    case h_1 b hst =>
      obtain ⟨hidle, rfl⟩ := guard_some hs
      exact h.upToDate hst hidle hc
  case reserveLocal =>
    split at hs
    case h_2 => cases hs
    case h_1 b hst =>
      obtain ⟨hg, rfl⟩ := guard_some hs
      exact h.reserveLocal hst hg.1 hg.2.1 hc
  case reserveFails wrote =>
    split at hs
    case h_2 => cases hs
    case h_1 b hst =>
      obtain ⟨hg, rfl⟩ := guard_some hs
      exact h.reserveFails hst hg.1 hg.2.1 hc wrote
  case launch =>
    obtain ⟨hg, rfl⟩ := guard_some hs
    exact h.launch hg.1 hg.2.1 hg.2.2
  case launchFails spawned =>
    obtain ⟨hg, hs⟩ := Option.ite_none_right_eq_some.mp hs
    obtain rfl : spawned = false := hc
    cases hs
    exact h.launchFails hg.1 hg.2.1 hg.2.2
  case fail =>
    obtain ⟨hg, rfl⟩ := guard_some hs
    exact h.fail hg
  case settle =>
    obtain ⟨hg, rfl⟩ := guard_some hs
    exact h.settle hg
  case vanish =>
    obtain ⟨hg, rfl⟩ := guard_some hs
    exact h.leave (not_handed (State.isIdle_iff.mp hg.2).1)

theorem Core.stepReader (h : Core s) (hc : Plain s a) (hs : s.stepReader a = some s') :
    Core s' := by
  cases a <;> simp only [State.stepReader, reduceCtorEq] at hs
  case read kept =>
    have hrec := h.reconcile kept
    obtain ⟨hreader, hs⟩ := Option.ite_none_right_eq_some.mp hs
    split at hs
    case isTrue hf =>
      rw [Bool.and_eq_true] at hf
      cases hs
      exact hrec.find hf.1 (h.reserved hf.2)
    case isFalse =>
      cases hs
      exact { hrec with }
  case lookCluster =>
    obtain ⟨hr, rfl⟩ := guard_some hs
    exact h.lookCluster hr hc
  case fetch =>
    obtain ⟨hr, rfl⟩ := guard_some hs
    exact h.fetch hr
  case post =>
    split at hs
    case h_2 => cases hs
    case h_1 g hr =>
      cases hs
      exact h.post hr
  case clear =>
    split at hs
    case h_3 => cases hs
    case h_1 g hr =>
      cases hs
      exact h.clear (Or.inl ⟨g, hr⟩)
    case h_2 hr =>
      cases hs
      exact h.clear (Or.inr hr)
  case readOnLoop kept =>
    obtain ⟨hg, rfl⟩ := guard_some hs
    exact h.readOnLoop hg.1 kept
  case deliver =>
    split at hs
    case h_2 => cases hs
    case h_1 g rest hp =>
      obtain ⟨_, rfl⟩ := guard_some hs
      exact h.deliver hp
  case writes i p =>
    split at hs
    case h_2 => cases hs
    case h_1 g hi =>
      obtain ⟨hf, rfl⟩ := guard_some hs
      exact h.writes hi hf.1 hf.2
  case dies i =>
    split at hs
    case h_2 => cases hs
    case h_1 g hi =>
      cases hs
      exact h.dies g

/-- A reading that left the local flag found an operation that is not over. -/
theorem Core.unread (h : Core s) (hq : s.quiet)
    (hno : ¬(s.file.phase.isFinal = true ∧ s.localReserved = true)) : s.localReserved = false := by
  by_contra hl
  rw [Bool.not_eq_false] at hl
  rw [State.quiet, Bool.and_eq_true, Bool.or_eq_true, decide_eq_true_eq] at hq
  rcases hq.2 with hf | hp
  · exact hno ⟨hf, hl⟩
  · rcases h.typed (h.reserved hl) with hg | hg | hg <;> rw [hp] at hg <;> cases hg

theorem Core.readUnread (h : Core s) (hidle : s.isIdle) (kept : Bool)
    (hq : (s.readOnLoop kept).quiet = true) : (s.readOnLoop kept).localReserved = false := by
  have hread := h.readOnLoop hidle kept
  by_cases hf : (s.reconciled kept).phase.isFinal ∧ s.localReserved
  case pos =>
    unfold State.readOnLoop
    rw [if_pos (Bool.and_eq_true_iff.mpr hf)]
  case neg =>
    refine hread.unread hq fun hno => hf ?_
    unfold State.readOnLoop at hno
    rw [if_neg (fun he => hf (Bool.and_eq_true_iff.mp he))] at hno
    exact hno

/-- What was read before counts if the flag is as it was. -/
theorem Inv.still (h : Inv s) (hr : s'.read = s.read) (hl : s'.localReserved = s.localReserved) :
    s'.read = true → s'.localReserved = false := fun he => hl.trans (h.read (hr ▸ he))

theorem State.stepRollout_frame (hs : s.stepRollout a = some s') :
    s'.read = s.read ∧ s'.localReserved = s.localReserved := by
  cases a <;> simp only [State.stepRollout, reduceCtorEq] at hs
  all_goals
    split at hs
    · cases hs
      exact ⟨rfl, rfl⟩
    · cases hs

theorem State.endUnlessCluster_frame : s.endUnlessCluster.read = s.read ∧
    s.endUnlessCluster.localReserved = s.localReserved := by
  unfold State.endUnlessCluster State.endUpdate
  split <;> exact ⟨rfl, rfl⟩

theorem Inv.localUnread (h : Inv s) (ht : Core s') (hs : s.stepLocal a = some s')
    (hq : s'.quiet = true) (hread : s'.read = true) : s'.localReserved = false := by
  cases a <;> simp only [State.stepLocal, reduceCtorEq] at hs
  case begin byRollout kept =>
    obtain ⟨hg, rfl⟩ := guard_some hs
    refine ht.unread hq fun hno => ?_
    have hsame : (s.begin byRollout kept).file = (s.readOnLoop kept).file ∧
        (s.begin byRollout kept).localReserved = (s.readOnLoop kept).localReserved := by
      unfold State.begin
      dsimp only
      split <;> exact ⟨rfl, rfl⟩
    rw [hsame.1, hsame.2] at hno
    unfold State.readOnLoop State.endUnlessCluster State.endUpdate at hno
    dsimp only at hno
    split at hno
    case isTrue => cases hno.2
    case isFalse hf => exact hf (Bool.and_eq_true_iff.mpr hno)
  case giveUp | upToDate =>
    split at hs
    case h_2 => cases hs
    case h_1 =>
      obtain ⟨_, rfl⟩ := guard_some hs
      exact h.read hread
  case reserveLocal =>
    split at hs
    case h_2 => cases hs
    case h_1 =>
      obtain ⟨_, rfl⟩ := guard_some hs
      rw [State.quiet, Bool.and_eq_true, Bool.and_eq_true, decide_eq_true_eq,
        decide_eq_true_eq] at hq
      cases hq.1.2
  case reserveFails wrote =>
    split at hs
    case h_2 => cases hs
    case h_1 =>
      obtain ⟨_, rfl⟩ := guard_some hs
      exact State.endUnlessCluster_frame.2
  case settle =>
    obtain ⟨_, rfl⟩ := guard_some hs
    exact State.endUnlessCluster_frame.2
  all_goals
    obtain ⟨_, rfl⟩ := guard_some hs
    exact h.read hread

theorem Inv.readerUnread (h : Inv s) (ht : Core s') (hs : s.stepReader a = some s')
    (hq : s'.quiet = true) (hread : s'.read = true) : s'.localReserved = false := by
  cases a <;> simp only [State.stepReader, reduceCtorEq] at hs
  case read kept =>
    obtain ⟨_, hs⟩ := Option.ite_none_right_eq_some.mp hs
    split at hs
    case isTrue =>
      cases hs
      exact h.read hread
    case isFalse hf =>
      cases hs
      exact ht.unread hq fun hno => hf (Bool.and_eq_true_iff.mpr hno)
  case post | dies =>
    split at hs
    case h_2 => cases hs
    case h_1 =>
      cases hs
      exact h.read hread
  case clear =>
    split at hs
    case h_3 => cases hs
    case h_1 | h_2 =>
      cases hs
      rfl
  case readOnLoop kept =>
    obtain ⟨hg, rfl⟩ := guard_some hs
    exact h.readUnread hg.1 kept hq
  case deliver =>
    split at hs
    case h_2 => cases hs
    case h_1 =>
      obtain ⟨_, hs⟩ := Option.ite_none_right_eq_some.mp hs
      have he := Option.some.inj hs
      split at he
      · obtain rfl := he
        exact h.read hread
      · obtain rfl := he
        exact h.read hread
  case writes =>
    split at hs
    case h_2 => cases hs
    case h_1 =>
      obtain ⟨_, rfl⟩ := guard_some hs
      exact h.read hread
  all_goals
    obtain ⟨_, rfl⟩ := guard_some hs
    exact h.read hread

theorem Inv.init (h : Init s) : Inv s where
  gens g hg := by
    rw [h.posted] at hg
    cases hg
  cluster := by
    rw [h.clusterReserved, h.rollout]
    rfl
  busy _ := by
    rw [h.rollout]
    rfl
  starter hs := by
    rw [h.starter] at hs
    cases hs
  alone _ := h.agent
  unguarded _ ho := by
    rw [h.own] at ho
    cases ho
  handed hh := by
    rw [h.rollout] at hh
    cases hh
  last _ := h.localReserved
  waiting ha := by
    rw [h.agent] at ha
    cases ha
  broken ha := by
    rw [h.agent] at ha
    cases ha
  failing ha := by
    rw [h.agent] at ha
    cases ha
  manned ha := absurd h.agent ha
  unowned ho := by
    rw [h.own] at ho
    cases ho
  current i g hi ho := by
    rw [h.helpers g (List.mem_of_getElem? hi)] at ho
    cases ho
  typed ho := by
    rw [h.own] at ho
    cases ho
  operation ho := by
    rw [h.own] at ho
    cases ho
  reserved hl := by
    rw [h.localReserved] at hl
    cases hl
  found hr := by
    rw [h.reader] at hr
    cases hr
  ending hr := by
    rw [h.reader] at hr
    cases hr
  fetched g hr := by
    rw [h.reader] at hr
    cases hr
  posted g hr := by
    rw [h.reader] at hr
    cases hr
  needed hn := by
    rcases hn with hh | ha | ⟨ho, -, -⟩
    · rw [h.rollout] at hh
      cases hh
    · rw [h.agent] at ha
      cases ha
    · rw [h.own] at ho
      cases ho
  owed hk := by
    rw [State.kept, h.reserved] at hk
    cases hk.1
  read _ := h.localReserved

/-- One step keeps the invariant. -/
theorem Inv.step (h : Inv s) (hc : Plain s a) (hs : Reservation.step s a = some s') : Inv s' := by
  obtain ⟨t, ht, rfl⟩ := Option.map_eq_some_iff.mp hs
  rcases Option.or_eq_some_iff.mp ht with ht | ⟨-, ht⟩
  · have hframe := State.stepRollout_frame ht
    exact (h.toCore.stepRollout hc ht).tidy fun _ => h.still hframe.1 hframe.2
  · rcases Option.or_eq_some_iff.mp ht with ht | ⟨-, ht⟩
    · have hcore := h.toCore.stepLocal hc ht
      exact hcore.tidy (h.localUnread hcore ht)
    · have hcore := h.toCore.stepReader hc ht
      exact hcore.tidy (h.readerUnread hcore ht)

/-- **In every run whose steps meet `Plain`, transfers are held off as long as the rollout, the
local operation or its helper needs it, and no longer.** -/
theorem held {s s' : State} (h : Init s) (hr : Reach step Plain s s') : Held s' := by
  have hinv : Inv s' := hr.invariant (Inv.init h) fun _ _ _ ha hc hs => ha.step hc hs
  exact hinv.holding

/-! ## Two runs -/

/-- The process serves a revision, and was never asked to update. -/
def idle : State :=
  ⟨0, false, [], false, false, ⟨.idle, true, none⟩, [], .idle, .none, none, none, false, false⟩

theorem idle_init : Init idle :=
  ⟨rfl, rfl, rfl, rfl, rfl, rfl, rfl, rfl, rfl, rfl, fun _ hh => absurd hh List.not_mem_nil⟩

instance (s : State) : Decidable s.settled :=
  inferInstanceAs (Decidable (_ ∧ _))

instance (s : State) : ∀ a, Decidable (Plain s a)
  | .upToDate => inferInstanceAs (Decidable s.settled)
  | .reserveLocal => inferInstanceAs (Decidable s.settled)
  | .reserveFails _ => inferInstanceAs (Decidable s.settled)
  | .launchFails spawned => inferInstanceAs (Decidable (spawned = false))
  | .reserve => inferInstanceAs (Decidable (s.reader ≠ some .ending))
  | .lookCluster => inferInstanceAs (Decidable (s.rollout ≠ .reserving))
  | .look => inferInstanceAs (Decidable (_ → _ → _ = _))
  | .rollout | .leavePreflight | .mark | .leaveWorkers | .callLocal | .abandon | .unmark | .finish
  | .begin _ _ | .giveUp | .launch | .fail | .settle | .vanish | .read _ | .fetch | .post | .clear
  | .readOnLoop _ | .deliver | .writes _ _ | .dies _ => isTrue trivial

/-- The rollout hands the reservation to its local operation, whose helper restarts the process. -/
theorem held_handed : ∃ s, Held s ∧ s.rollout = .idle ∧ s.localReserved = true ∧ s.kept := by
  have hrun : (replay step Plain idle [.rollout, .reserve, .mark, .callLocal, .begin true true,
      .reserveLocal, .unmark, .look, .launch, .writes 0 .staging, .read true]).any
      (fun s => decide (s.rollout = .idle) && s.localReserved && s.reserved &&
        decide (s.generation ∉ s.posted)) = true := by
    decide +kernel
  obtain ⟨s, hr, hs⟩ := reach_any hrun
  simp only [Bool.and_eq_true, decide_eq_true_eq] at hs
  exact ⟨s, held idle_init hr, hs.1.1.1, hs.1.1.2, hs.1.2, hs.2⟩

/-- A thread that reads the end of a local operation leaves its reservation to the rollout, and the
rollout leaves it to the thread. -/
theorem stranded : ∃ s, Init idle ∧ Reach step Free idle s ∧ s.quiet = true ∧ s.read = true ∧
    s.localReserved = false ∧ s.kept ∧ ¬Held s := by
  have hrun : (replay step Free idle [.rollout, .reserve, .mark, .begin false true, .reserveLocal,
      .launch, .writes 0 .failed, .dies 0, .read true, .lookCluster, .leaveWorkers, .unmark, .look,
      .clear, .read true]).any
      (fun s => s.quiet && s.read && !s.localReserved && s.reserved &&
        decide (s.generation ∉ s.posted)) = true := by
    decide +kernel
  obtain ⟨s, hr, hs⟩ := reach_any hrun
  simp only [Bool.and_eq_true, Bool.not_eq_true', decide_eq_true_eq] at hs
  obtain ⟨⟨⟨⟨hq, hread⟩, hl⟩, hres⟩, hposted⟩ := hs
  refine ⟨s, idle_init, hr, hq, hread, hl, ⟨hres, hposted⟩, fun hh => ?_⟩
  rcases hh.released hq hread with hno | hno
  · cases hres.symm.trans hno
  · exact hposted hno

end SparkDeck.Update.Reservation
