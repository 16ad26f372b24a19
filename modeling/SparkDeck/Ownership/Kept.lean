import SparkDeck.Ownership.Ledger

/-!
# No managed container is forgotten

`Inv` is what holds in every run: a managed container has a claim, unless it has the name of a backup
or of a helper. `OpGood` is what the operation under way has found out or written: before a claim is
released, that no managed container has the name.
-/

namespace SparkDeck.Ownership

open Transition Function

variable {N D : Type*} {s t : State N D} {name k : N} {o : Op N D} {a : Act N D} {effect ok : Bool}

def OpGood (s : State N D) : Op N D → Prop
  | .creates name _ => (s.ledger name).isSome
  | .looksUp name _ => (s.ledger name).isSome
  | .releases name => s.managed name = false ∨ s.spare name = true
  | .reconciles observed =>
    ∀ name, s.managed name → (observed name).isSome ∨ s.spare name
  | .stops name => (s.ledger name).isSome
  | .renames name => (s.ledger name).isSome
  | .recreates name _ => (s.ledger name).isSome
  | .settles name _ => (s.ledger name).isSome
  | .adopts name _ => (s.ledger name).isSome
  | .drops name _ => (s.ledger name).isSome
  | .undoes name _ => (s.ledger name).isSome
  | .restores name _ => (s.ledger name).isSome
  | _ => True

structure Inv (s : State N D) : Prop where
  kept : ∀ name, s.managed name → (s.ledger name).isSome ∨ s.spare name
  op : ∀ o, s.op = some o → OpGood s o

/-- A claim that is dropped is that of a name without a managed container. -/
def Forgets (s t : State N D) : Prop :=
  ∀ name, Dropped s t name → t.managed name = false ∨ t.spare name = true

/-! ## What a step keeps -/

variable {observed : N → Option (Option D)} {l : Ledger N D}

theorem isSome_reconcile {now : ℚ} : (reconcile l now observed k).isSome = (observed k).isSome := by
  unfold reconcile
  split
  · next h => rw [h]; rfl
  · next h => rw [h]; rfl

theorem isSome_observed (h : s.managed name) : (s.observed name).isSome := by
  unfold State.managed at h
  unfold State.observed
  split
  · next c hc =>
    rw [hc] at h
    have hm : c.managed := h
    rw [if_pos hm]
    rfl
  · next hc =>
    rw [hc] at h
    cases h

theorem managed_of_none (h : ¬(s.docker name).isSome = true) : s.managed name = false := by
  unfold State.managed
  cases hd : s.docker name with
  | none => rfl
  | some c => exact absurd (by rw [hd]; rfl) h

theorem forgets_of_eq (h : t.ledger = s.ledger) : Forgets s t := by
  rintro name ⟨hsome, hnone⟩
  rw [h] at hnone
  rw [hnone] at hsome
  cases hsome

/-- Docker changes, and every container that is managed was, or is accounted for. -/
theorem Inv.docker (h : Inv s) (hledger : t.ledger = s.ledger) (hspare : t.spare = s.spare)
    (hnew : ∀ k, t.managed k → s.managed k ∨ (s.ledger k).isSome)
    (hop : ∀ o, t.op = some o → OpGood t o) : Inv t ∧ Forgets s t := by
  refine ⟨⟨fun k hk => ?_, hop⟩, forgets_of_eq hledger⟩
  rw [hledger, hspare]
  exact (hnew k hk).elim (h.kept k) Or.inl

/-- The operation goes on, or is over. -/
theorem Inv.next (h : Inv s) (o : Option (Op N D)) (hop : ∀ x, o = some x → OpGood s x) :
    Inv { s with op := o } ∧ Forgets s { s with op := o } := by
  refine ⟨⟨h.kept, fun x hx => ?_⟩, forgets_of_eq rfl⟩
  have hgood := hop x hx
  cases x <;> exact hgood

theorem Inv.ends (h : Inv s) : Inv s.ends ∧ Forgets s s.ends := h.next none nofun

theorem Inv.goOn (h : Inv s) (hop : OpGood s o) : Inv (s.goOn o) ∧ Forgets s (s.goOn o) :=
  h.next (some o) fun _ hx => Option.some.inj hx ▸ hop

/-- The claims are those of a complete inventory. -/
theorem inv_reconciles
    (hobs : ∀ name, s.managed name → (observed name).isSome ∨ s.spare name) :
    Inv (s.write (reconcile s.ledger s.now observed) none) ∧
      Forgets s (s.write (reconcile s.ledger s.now observed) none) := by
  refine ⟨⟨fun k hk => (hobs k hk).imp_left isSome_reconcile.trans, nofun⟩, ?_⟩
  rintro k ⟨_, hnone⟩
  cases hm : s.managed k with
  | false => exact Or.inl hm
  | true =>
    refine Or.inr ((hobs k hm).resolve_left fun ho => ?_)
    have hsome : (reconcile s.ledger s.now observed k).isSome = (observed k).isSome :=
      isSome_reconcile
    rw [show reconcile s.ledger s.now observed k = none from hnone, ho] at hsome
    cases hsome

/-- What another program, or a helper, does to Docker leaves the operation as good. -/
theorem OpGood.docker (h : OpGood s o) (hledger : t.ledger = s.ledger)
    (hspare : ∀ k, s.spare k → t.spare k)
    (hnew : ∀ k, t.managed k → s.managed k ∨ t.spare k) : OpGood t o := by
  have hl : ∀ name, (s.ledger name).isSome → (t.ledger name).isSome :=
    fun name hs => by rw [hledger, hs]
  cases o with
  | releases name =>
    rcases h with hm | hsp
    · cases ht : t.managed name with
      | false => exact Or.inl ht
      | true => exact Or.inr ((hnew name ht).resolve_left fun hs => by rw [hm] at hs; cases hs)
    · exact Or.inr (hspare name hsp)
  | reconciles observed =>
    intro k hk
    exact (hnew k hk).elim (fun hs => (h k hs).imp_right (hspare k)) Or.inr
  | creates name c | looksUp name c | stops name | renames name | recreates name b
  | settles name b | adopts name b | drops name b | undoes name b | restores name b =>
    exact hl name h
  | claims _ _ | confirms _ _ | inventory | finds _ | removes _ | replaces _ => exact trivial

theorem Inv.environment (h : Inv s) (hop : t.op = s.op) (hledger : t.ledger = s.ledger)
    (hspare : ∀ k, s.spare k → t.spare k)
    (hnew : ∀ k, t.managed k → s.managed k ∨ t.spare k) :
    Inv t ∧ Forgets s t := by
  refine ⟨⟨fun k hk => ?_, fun o ho => ?_⟩, forgets_of_eq hledger⟩
  · rw [hledger]
    exact (hnew k hk).elim (fun hm => (h.kept k hm).imp_right (hspare k)) Or.inr
  · exact (h.op o (hop ▸ ho)).docker hledger hspare hnew

variable [DecidableEq N]

theorem managed_set_self (c : Option (Container D)) :
    (s.set name c).managed name = c.any Container.managed :=
  congrArg (Option.any Container.managed) (update_self _ _ _)

theorem managed_set_ne (h : k ≠ name) (c : Option (Container D)) :
    (s.set name c).managed k = s.managed k :=
  congrArg (Option.any Container.managed) (update_of_ne h _ _)

@[simp] theorem call_ledger (c : Option (Container D)) :
    (s.call effect name c).ledger = s.ledger := by
  cases effect <;> rfl

@[simp] theorem call_spare (c : Option (Container D)) :
    (s.call effect name c).spare = s.spare := by
  cases effect <;> rfl

/-- A removal makes no managed container. -/
theorem managed_of_set_none (h : (s.set name none).managed k) : s.managed k := by
  by_cases hk : k = name
  · subst hk
    rw [managed_set_self] at h
    cases h
  · rwa [managed_set_ne hk] at h

theorem managed_of_call_none (h : (s.call effect name none).managed k) :
    s.managed k := by
  cases effect with
  | false => exact h
  | true => exact managed_of_set_none h

/-- A container is made under a name that has a claim. -/
theorem managed_of_call (hl : (s.ledger name).isSome) {c : Option (Container D)}
    (h : (s.call effect name c).managed k) :
    s.managed k ∨ (s.ledger k).isSome := by
  cases effect with
  | false => exact Or.inl h
  | true =>
    by_cases hk : k = name
    · subst hk
      exact Or.inr hl
    · exact Or.inl ((managed_set_ne hk c).symm.trans h)

theorem isSome_update {c : Claim D} (h : (l k).isSome) :
    (update l name (some c) k).isSome := by
  by_cases hk : k = name
  · subst hk
    rw [update_self]
    rfl
  · rwa [update_of_ne hk]

theorem isSome_update_self {c : Claim D} : (update l name (some c) name).isSome := by
  rw [update_self]
  rfl

/-- A claim is written. -/
theorem Inv.claims (h : Inv s) (c : Claim D) (next : Option (Op N D))
    (hop : ∀ x, next = some x → OpGood (s.write (update s.ledger name (some c)) next) x) :
    Inv (s.write (update s.ledger name (some c)) next) ∧
      Forgets s (s.write (update s.ledger name (some c)) next) := by
  refine ⟨⟨fun k hk => (h.kept k hk).imp_left isSome_update, hop⟩, ?_⟩
  rintro k ⟨hsome, hnone⟩
  have hstill : (update s.ledger name (some c) k).isSome := isSome_update hsome
  rw [show update s.ledger name (some c) k = none from hnone] at hstill
  cases hstill

/-- The claim of a name that no managed container has is released. -/
theorem Inv.releases (h : Inv s) (hfree : s.managed name = false ∨ s.spare name = true) :
    Inv (s.write (release s.ledger name) none) ∧
      Forgets s (s.write (release s.ledger name) none) := by
  have hne : ∀ {k}, k ≠ name → release s.ledger name k = s.ledger k :=
    fun hk => update_of_ne hk _ _
  refine ⟨⟨fun k hk => ?_, nofun⟩, fun k hk => ?_⟩
  · by_cases he : k = name
    · subst he
      exact Or.inr (hfree.resolve_left fun hm => Bool.false_ne_true (hm.symm.trans hk))
    · exact (h.kept k hk).imp_left fun hl => (congrArg Option.isSome (hne he)).trans hl
  · by_cases he : k = name
    · subst he
      exact hfree
    · obtain ⟨hsome, hnone⟩ := hk
      rw [← hne he, show release s.ledger name k = none from hnone] at hsome
      cases hsome

theorem Inv.stepOp (h : Inv s) (ho : s.op = some o) (hs : stepOp s o effect ok = some t) :
    Inv t ∧ Forgets s t := by
  have hgood := h.op o ho
  cases o with
  | claims name c | replaces name =>
    cases hs
    cases ok with
    | false => exact h.ends
    | true =>
      refine h.claims _ _ fun x hx => ?_
      cases hx
      exact isSome_update_self
  | creates name c =>
    dsimp only [Ownership.stepOp] at hs
    obtain ⟨_, hs⟩ := Option.ite_none_left_eq_some.mp hs
    cases hs
    refine h.docker (call_ledger _) (call_spare _) (fun k hk => managed_of_call hgood hk) ?_
    intro x hx
    cases hx
    cases ok with
    | true => exact trivial
    | false =>
      change ((s.call effect name (some c)).ledger name).isSome = true
      rw [call_ledger]
      exact hgood
  | looksUp name c =>
    cases hs
    cases ok with
    | false => exact h.ends
    | true =>
      rw [if_pos rfl]
      split
      · next hd => exact h.goOn (Or.inl (managed_of_none (by rw [hd]; nofun)))
      · next e hd =>
        split
        case isTrue => exact h.goOn trivial
        case isFalse hm =>
          refine h.goOn (Or.inl ?_)
          unfold State.managed
          rw [hd]
          exact Bool.eq_false_iff.mpr hm
  | confirms name deploymentId =>
    cases hs
    cases ok with
    | false => exact h.ends
    | true => exact h.claims _ none nofun
  | releases name =>
    cases hs
    cases ok with
    | false => exact h.ends
    | true => exact h.releases hgood
  | inventory =>
    cases hs
    cases ok with
    | false => exact h.ends
    | true => exact h.goOn fun name hm => Or.inl (isSome_observed hm)
  | reconciles observed =>
    cases hs
    cases ok with
    | false => exact h.ends
    | true => exact inv_reconciles hgood
  | finds name =>
    cases hs
    cases ok with
    | false => exact h.ends
    | true =>
      rw [if_pos rfl]
      split
      case isTrue => exact h.goOn trivial
      case isFalse hd => exact h.goOn (Or.inl (managed_of_none hd))
  | removes name =>
    dsimp only [Ownership.stepOp] at hs
    obtain ⟨hc, hs⟩ := Option.ite_none_left_eq_some.mp hs
    cases hs
    cases ok with
    | false =>
      exact h.docker (call_ledger _) (call_spare _)
        (fun k hk => Or.inl (managed_of_call_none hk)) nofun
    | true =>
      refine h.docker (call_ledger _) (call_spare _)
        (fun k hk => Or.inl (managed_of_call_none hk)) fun x hx => ?_
      cases hx
      refine Or.inl ?_
      cases effect with
      | true => exact managed_set_self none
      | false => exact managed_of_none fun hd => hc ⟨rfl, nofun, hd⟩
  | stops name =>
    cases hs
    cases ok with
    | false => exact h.ends
    | true => exact h.goOn hgood
  | renames name => cases hs
  | recreates name backup =>
    dsimp only [Ownership.stepOp] at hs
    obtain ⟨_, hs⟩ := Option.ite_none_left_eq_some.mp hs
    cases hs
    refine h.docker (call_ledger _) (call_spare _) (fun k hk => managed_of_call hgood hk) ?_
    intro x hx
    cases hx
    have hl : ((s.call effect name (some ⟨true, none⟩)).ledger name).isSome := by
      rw [call_ledger]
      exact hgood
    cases ok with
    | true => exact hl
    | false => exact hl
  | settles name backup =>
    cases hs
    cases ok with
    | false | true => exact h.goOn hgood
  | adopts name backup =>
    cases hs
    cases ok with
    | false => exact h.goOn hgood
    | true =>
      refine h.claims _ _ fun x hx => ?_
      cases hx
      exact isSome_update_self
  | drops name backup =>
    dsimp only [Ownership.stepOp] at hs
    obtain ⟨_, hs⟩ := Option.ite_none_left_eq_some.mp hs
    cases hs
    cases ok with
    | true =>
      exact h.docker (call_ledger _) (call_spare _)
        (fun k hk => Or.inl (managed_of_call_none hk)) nofun
    | false =>
      refine h.docker (call_ledger _) (call_spare _)
        (fun k hk => Or.inl (managed_of_call_none hk)) fun x hx => ?_
      cases hx
      change ((s.call effect backup none).ledger name).isSome = true
      rw [call_ledger]
      exact hgood
  | undoes name backup =>
    cases hs
    refine h.docker (call_ledger _) (call_spare _)
      (fun k hk => Or.inl (managed_of_call_none hk)) fun x hx => ?_
    cases hx
    change ((s.call effect name none).ledger name).isSome = true
    rw [call_ledger]
    exact hgood
  | restores name backup =>
    dsimp only [Ownership.stepOp] at hs
    obtain ⟨_, hs⟩ := Option.ite_none_left_eq_some.mp hs
    cases hs
    -- the backup gets the name that has the claim
    have hnew : ∀ k, ((s.call effect name (s.docker backup)).call effect backup none).managed k =
        true → s.managed k ∨ (s.ledger k).isSome :=
      fun k hk => managed_of_call hgood (managed_of_call_none hk)
    cases ok with
    | true =>
      refine h.docker ?_ ?_ hnew fun x hx => ?_
      · exact (call_ledger _).trans (call_ledger _)
      · exact (call_spare _).trans (call_spare _)
      · cases hx
        exact trivial
    | false =>
      refine h.docker ?_ ?_ hnew nofun
      · exact (call_ledger _).trans (call_ledger _)
      · exact (call_spare _).trans (call_spare _)

theorem Inv.step (h : Inv s) (hs : Ownership.step s a = some t) : Inv t ∧ Forgets s t := by
  have hmono : ∀ {b k : N}, s.spare k → update s.spare b true k := by
    intro b k hk
    by_cases he : k = b
    · subst he
      exact update_self _ _ _
    · exact (update_of_ne he _ _).trans hk
  cases a with
  | run name c | list | remove name | update name =>
    dsimp only [Ownership.step] at hs
    obtain ⟨_, rfl⟩ := guard_some hs
    exact h.goOn trivial
  | goes effect ok =>
    dsimp only [Ownership.step] at hs
    split at hs
    · next o ho => exact h.stepOp ho hs
    · cases hs
  | backsUp backup effect ok =>
    dsimp only [Ownership.step] at hs
    split at hs
    · next name ho =>
      obtain ⟨hc, hs⟩ := Option.ite_none_left_eq_some.mp hs
      cases hs
      have hgood : (s.ledger name).isSome := h.op _ ho
      cases effect with
      | false =>
        cases ok with
        | false => exact h.ends
        | true => exact absurd (Or.inr (Or.inr ⟨rfl, nofun⟩)) hc
      | true =>
        have hkept : ∀ k, ((s.set backup (s.docker name)).set name none).managed k →
            (s.ledger k).isSome ∨ update s.spare backup true k := by
          intro k hk
          have hk := managed_of_set_none hk
          by_cases he : k = backup
          · subst he
            exact Or.inr (update_self _ _ _)
          · exact (h.kept k ((managed_set_ne he _).symm.trans hk)).imp_right hmono
        cases ok with
        | false => exact ⟨⟨hkept, nofun⟩, forgets_of_eq rfl⟩
        | true =>
          refine ⟨⟨hkept, fun x hx => ?_⟩, forgets_of_eq rfl⟩
          cases hx
          exact hgood
    · cases hs
  | probe name =>
    dsimp only [Ownership.step] at hs
    obtain ⟨_, rfl⟩ := guard_some hs
    refine h.environment rfl rfl (fun k => hmono) fun k hk => ?_
    by_cases he : k = name
    · subst he
      exact Or.inr (update_self _ _ _)
    · exact Or.inl ((managed_set_ne he _).symm.trans hk)
  | vanish name =>
    cases hs
    exact h.environment rfl rfl (fun k => id) fun k hk => Or.inl (managed_of_set_none hk)
  | other name there =>
    dsimp only [Ownership.step] at hs
    obtain ⟨hm, hs⟩ := Option.ite_none_left_eq_some.mp hs
    cases hs
    refine h.environment rfl rfl (fun k => id) fun k hk => Or.inl ?_
    by_cases he : k = name
    · subst he
      rw [managed_set_self] at hk
      cases there <;> cases hk
    · exact (managed_set_ne he _).symm.trans hk
  | kill =>
    cases hs
    exact h.ends
  | clock now =>
    cases hs
    exact h.environment rfl rfl (fun k => id) fun k hk => Or.inl hk

theorem inv_of_reach {now : ℚ} (hr : Reach step Free (init now : State N D) s) : Inv s :=
  hr.invariant ⟨nofun, nofun⟩ fun _ _ _ h _ hs => (h.step hs).1

/-! ## Runs without backups and helpers -/

theorem stepOp_spare (hs : stepOp s o effect ok = some t) : t.spare = s.spare := by
  cases o <;> grind [stepOp, State.goOn, State.ends, State.write, call_spare]

theorem spare_step (hc : Orderly s a) (hs : step s a = some t) : t.spare = s.spare := by
  cases a with
  | goes effect ok =>
    dsimp only [step] at hs
    split at hs
    · exact stepOp_spare hs
    · cases hs
  | backsUp backup effect ok =>
    obtain rfl : effect = false := hc
    grind [step, State.goOn, State.ends]
  | probe name => exact absurd hc id
  | run _ _ | list | remove _ | update _ | vanish _ | other _ _ | kill | clock _ =>
    grind [step, State.goOn, State.ends, State.set]

theorem spare_of_orderly {now : ℚ} (hr : Reach step Orderly (init now : State N D) s) (name : N) :
    s.spare name = false := by
  have hall := hr.invariant (P := fun s => s.spare = fun _ => false) rfl
    fun _ _ _ h hc hs => (spare_step hc hs).trans h
  rw [hall]

omit [DecidableEq N] in
theorem isNew_iff : s.isNew name ↔ s.docker name = none ∧ s.ledger name = none := by
  unfold State.isNew
  rw [Bool.and_eq_true, Option.isNone_iff_eq_none, Option.isNone_iff_eq_none]

/-- A step that is not orderly makes a managed container without a claim. -/
theorem disorderly (hc : ¬Orderly s a) (hs : step s a = some t) :
    t.ledger = s.ledger ∧ ¬Kept t := by
  cases a with
  | backsUp backup effect ok =>
    cases effect with
    | false => exact absurd rfl hc
    | true =>
      dsimp only [step] at hs
      split at hs
      · next name ho =>
        obtain ⟨hfree, hs⟩ := Option.ite_none_left_eq_some.mp hs
        have hnew : s.isNew backup := by
          cases hb : s.isNew backup with
          | true => rfl
          | false => exact absurd (Or.inl hb) hfree
        have hm : s.managed name := by
          cases hb : s.managed name with
          | true => rfl
          | false => exact absurd (Or.inr (Or.inl ⟨rfl, hb⟩)) hfree
        obtain ⟨hdocker, hledger⟩ := isNew_iff.mp hnew
        have hne : backup ≠ name := by
          rintro rfl
          unfold State.managed at hm
          rw [hdocker] at hm
          cases hm
        -- the backup has no claim
        have hbad : ((s.set backup (s.docker name)).set name none).managed backup :=
          (managed_set_ne hne _).trans ((managed_set_self _).trans hm)
        cases hs
        cases ok with
        | false | true =>
          refine ⟨rfl, fun hkept => ?_⟩
          have hclaim : (s.ledger backup).isSome := hkept backup hbad
          rw [hledger] at hclaim
          cases hclaim
      · cases hs
  | probe name =>
    dsimp only [step] at hs
    obtain ⟨hnew, rfl⟩ := guard_some hs
    refine ⟨rfl, fun hkept => ?_⟩
    have hclaim : (s.ledger name).isSome := hkept name (managed_set_self _)
    rw [(isNew_iff.mp hnew).2] at hclaim
    cases hclaim
  | run _ _ | list | remove _ | update _ | goes _ _ | vanish _ | other _ _ | kill | clock _ =>
    exact absurd trivial hc

/-- In every run a managed container has a claim or is a backup or a helper, and a claim is dropped
only where no managed container has its name, or one of these. Where every step is `Orderly`, neither
exception is needed; and the first step that is not makes a managed container without a claim. -/
theorem ledger_kept (now : ℚ) (s : State N D) :
    (Reach step Free (init now) s →
      (∀ name, s.managed name = true → (s.ledger name).isSome = true ∨ s.spare name = true) ∧
        ∀ (a : Act N D) (t : State N D), step s a = some t → ∀ name, Dropped s t name →
          t.managed name = false ∨ t.spare name = true) ∧
      (Reach step Orderly (init now) s →
        Kept s ∧ ∀ (a : Act N D) (t : State N D), step s a = some t →
          (∀ name, Dropped s t name → t.managed name = false) ∧ (¬Orderly s a → ¬Kept t)) := by
  refine ⟨fun hr => ⟨(inv_of_reach hr).kept, fun a t hs => ((inv_of_reach hr).step hs).2⟩,
    fun hr => ⟨fun name hm => ?_, fun a t hs => ⟨fun name hd => ?_, fun hc => (disorderly hc hs).2⟩⟩⟩
  · refine ((inv_of_reach hr.free).kept name hm).resolve_right ?_
    rw [spare_of_orderly hr]
    nofun
  · by_cases hc : Orderly s a
    · refine (((inv_of_reach hr.free).step hs).2 name hd).resolve_right ?_
      rw [spare_step hc hs, spare_of_orderly hr]
      nofun
    · obtain ⟨hsome, hnone⟩ := hd
      rw [← (disorderly hc hs).1, hnone] at hsome
      cases hsome

/-! ## Three runs -/

instance decidableOrderly (s : State ℕ ℕ) : (a : Act ℕ ℕ) → Decidable (Orderly s a)
  | .backsUp _ effect _ => inferInstanceAs (Decidable (effect = false))
  | .probe _ => isFalse id
  | .run _ _ => isTrue trivial
  | .list => isTrue trivial
  | .remove _ => isTrue trivial
  | .update _ => isTrue trivial
  | .goes _ _ => isTrue trivial
  | .vanish _ => isTrue trivial
  | .other _ _ => isTrue trivial
  | .kill => isTrue trivial
  | .clock _ => isTrue trivial

/-- A create that fails after the container exists, and an inventory. -/
def launched : List (Act ℕ ℕ) :=
  [.run 7 ⟨true, some 1⟩, .goes false true, .goes true false, .goes false true, .goes false true,
    .list, .goes false true, .goes false true]

def hasSeven (s : State ℕ ℕ) : Bool := s.managed 7 && (s.ledger 7).isSome && s.op.isNone

/-- A replacement up to the rename. -/
def stopped : List (Act ℕ ℕ) := launched ++ [.update 7, .goes false true, .goes false true]

def renamesSeven (s : State ℕ ℕ) : Bool := (step s (.backsUp 8 true true)).isSome

theorem ledger_kept_launched :
    (∃ s : State ℕ ℕ, Kept s ∧ hasSeven s = true) ∧
      ∃ s t : State ℕ ℕ, step s (.backsUp 8 true true) = some t ∧ Kept s ∧ ¬Kept t := by
  constructor
  · have hrun : (replay step Orderly (init 0) launched).any hasSeven = true := by decide +kernel
    obtain ⟨s, hr, hs⟩ := reach_any hrun
    exact ⟨s, ((ledger_kept 0 s).2 hr).1, hs⟩
  · have hrun : (replay step Orderly (init 0) stopped).any renamesSeven = true := by decide +kernel
    obtain ⟨s, hr, hs⟩ := reach_any hrun
    obtain ⟨t, ht⟩ := Option.isSome_iff_exists.mp hs
    obtain ⟨hkept, hstep⟩ := (ledger_kept 0 s).2 hr
    exact ⟨s, t, ht, hkept, (hstep _ t ht).2 (by unfold Orderly; nofun)⟩

/-- The process is killed after the rename, and the container is removed by its old name. -/
def orphaned : List (Act ℕ ℕ) :=
  stopped ++ [.backsUp 8 true true, .kill, .remove 7, .goes false true, .goes false true]

/-- A managed container is left, and no claim. -/
def forgotten (s : State ℕ ℕ) : Bool :=
  s.managed 8 && (s.ledger 8).isNone && (s.ledger 7).isNone && s.op.isNone

theorem not_kept_of_forgotten {s : State ℕ ℕ} (h : forgotten s) : ¬Kept s := by
  unfold forgotten at h
  simp only [Bool.and_eq_true] at h
  obtain ⟨⟨⟨hm, hl⟩, _⟩, _⟩ := h
  intro hkept
  have hsome := hkept 8 hm
  rw [Option.isNone_iff_eq_none.mp hl] at hsome
  cases hsome

theorem backup_forgotten :
    (∃ s : State ℕ ℕ, Reach step Free (init 0) s ∧ forgotten s = true ∧ ¬Kept s) ∧
      ∃ s : State ℕ ℕ, Reach step Free (init 0) s ∧ s.op.isNone = true ∧ ¬Kept s := by
  constructor
  · have hrun : (replay step Free (init 0) orphaned).any forgotten = true := by decide +kernel
    obtain ⟨s, hr, hs⟩ := reach_any hrun
    exact ⟨s, hr, hs, not_kept_of_forgotten hs⟩
  · have hrun : (replay step Free (init 0) [.probe 8]).any forgotten = true := by decide +kernel
    obtain ⟨s, hr, hs⟩ := reach_any hrun
    have hop := hs
    exact ⟨s, hr, ((Bool.and_eq_true _ _).mp hop).2, not_kept_of_forgotten hs⟩

end SparkDeck.Ownership
