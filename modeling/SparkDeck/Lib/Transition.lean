import Mathlib.Logic.Relation

/-!
# Executable transition systems

A system is a partial step function `step : σ → ε → Option σ`: `step s e = none` when the label
`e` is not enabled at `s`. Nondeterminism (a scheduler, a network, a user) is the choice of
labels, so a schedule is a list of labels and `replay` runs one.

`Reach step C s t` says that `t` is reached from `s` by steps that all meet the side condition
`C`, a condition on the state before the step and its label. `Reach step Free` is plain
reachability.

* `Reach.invariant`: what holds at the start and is kept by every step that meets `C` holds of
  every state reached (the induction every safety result below rests on).
* `Reach.mono`, `Reach.free`: fewer steps reach fewer states.
* `guard_some`: a step that is guarded was enabled.
* `reach_of_replay`, `reach_any`: a replayed schedule whose steps meet `C` is such a run.
-/

namespace Transition

variable {σ ε : Type*}

/-- One step whose label and start meet `C`. -/
def Guarded (step : σ → ε → Option σ) (C : σ → ε → Prop) (s t : σ) : Prop :=
  ∃ e, C s e ∧ step s e = some t

/-- `t` is reached from `s` by steps that all meet `C`. -/
def Reach (step : σ → ε → Option σ) (C : σ → ε → Prop) : σ → σ → Prop :=
  Relation.ReflTransGen (Guarded step C)

/-- No side condition. -/
def Free : σ → ε → Prop := fun _ _ => True

variable {step : σ → ε → Option σ} {C D : σ → ε → Prop} {s t u : σ}

theorem guard_some {α : Type*} {c : Prop} [Decidable c] {a b : α}
    (h : (if c then some a else none) = some b) : c ∧ a = b := by
  obtain ⟨hc, h⟩ := Option.ite_none_right_eq_some.mp h
  exact ⟨hc, Option.some.inj h⟩

theorem Reach.refl : Reach step C s s := Relation.ReflTransGen.refl

theorem Reach.tail (h : Reach step C s t) {e : ε} (hc : C t e) (he : step t e = some u) :
    Reach step C s u :=
  Relation.ReflTransGen.tail h ⟨e, hc, he⟩

theorem Reach.head {e : ε} (hc : C s e) (he : step s e = some t) (h : Reach step C t u) :
    Reach step C s u :=
  Relation.ReflTransGen.head ⟨e, hc, he⟩ h

theorem Reach.trans (h : Reach step C s t) (h' : Reach step C t u) : Reach step C s u :=
  Relation.ReflTransGen.trans h h'

/-- **The invariant rule.** -/
theorem Reach.invariant {P : σ → Prop} (h : Reach step C s t) (h0 : P s)
    (hstep : ∀ a e b, P a → C a e → step a e = some b → P b) : P t := by
  induction h with
  | refl => exact h0
  | tail _ hs ih =>
    obtain ⟨e, hc, he⟩ := hs
    exact hstep _ e _ ih hc he

theorem Reach.mono (hCD : ∀ a e, C a e → D a e) (h : Reach step C s t) : Reach step D s t := by
  induction h with
  | refl => exact Reach.refl
  | tail _ hs ih =>
    obtain ⟨e, hc, he⟩ := hs
    exact ih.tail (hCD _ e hc) he

theorem Reach.free (h : Reach step C s t) : Reach step Free s t :=
  h.mono fun _ _ _ => trivial

/-! ## Schedules -/

instance (s : σ) (e : ε) : Decidable (Free s e) := isTrue trivial

/-- Replay a schedule; `none` as soon as a label is not enabled or does not meet `C`. -/
def replay (step : σ → ε → Option σ) (C : σ → ε → Prop) [∀ s e, Decidable (C s e)] :
    σ → List ε → Option σ
  | s, [] => some s
  | s, e :: es =>
    if C s e then
      match step s e with
      | some t => replay step C t es
      | none => none
    else none

variable [∀ s e, Decidable (C s e)]

/-- A replayed schedule is a run. -/
theorem reach_of_replay : ∀ {es : List ε} {s t : σ}, replay step C s es = some t → Reach step C s t
  | [], s, t, h => by
    obtain rfl : s = t := Option.some.inj h
    exact Reach.refl
  | e :: es, s, t, h => by
    by_cases hc : C s e
    · cases he : step s e with
      | none => simp [replay, he] at h
      | some u =>
        simp only [replay, if_pos hc, he] at h
        exact Reach.head hc he (reach_of_replay h)
    · simp [replay, hc] at h

/-- Replaying a schedule and testing the state it ends in gives a reached state that passes. -/
theorem reach_any {es : List ε} {p : σ → Bool} (h : (replay step C s es).any p) :
    ∃ t, Reach step C s t ∧ p t := by
  obtain ⟨t, ht, hp⟩ := (Option.any_eq_true p _).mp h
  exact ⟨t, reach_of_replay ht, hp⟩

end Transition
