import Mathlib.Data.List.Induction
import SparkDeck.Lib.Transition

/-!
# The past of a run

`exec step s es` is the state after the labels `es`. `Once step s es P` says that `P` held of one of
the states of that run, and `OnceStep step s es Q` that one of its steps met `Q`.

* `Once.append`, `OnceStep.append`: a longer run has the past of a shorter one.
* `latch_of_once`, `onceStep_of_latch`: what a step leaves set, and sets only for a cause, is set
  after a run that was in such a state, and only if one of its steps was a cause.
-/

namespace Transition

variable {σ ε : Type*} {step : σ → ε → Option σ} {s t u v : σ} {es es' : List ε}

def exec (step : σ → ε → Option σ) : σ → List ε → Option σ
  | s, [] => some s
  | s, e :: es => (step s e).bind fun t => exec step t es

theorem exec_cons {e : ε} :
    exec step s (e :: es) = some t ↔ ∃ u, step s e = some u ∧ exec step u es = some t :=
  Option.bind_eq_some_iff

theorem exec_append :
    exec step s (es ++ es') = some t ↔ ∃ u, exec step s es = some u ∧ exec step u es' = some t := by
  induction es generalizing s with
  | nil =>
    constructor
    · intro h
      exact ⟨s, rfl, h⟩
    · rintro ⟨u, hu, h⟩
      cases hu
      exact h
  | cons e es ih =>
    rw [List.cons_append, exec_cons]
    constructor
    · rintro ⟨w, hw, h⟩
      obtain ⟨u, hu, h⟩ := ih.mp h
      exact ⟨u, exec_cons.mpr ⟨w, hw, hu⟩, h⟩
    · rintro ⟨u, hu, h⟩
      obtain ⟨w, hw, hu⟩ := exec_cons.mp hu
      exact ⟨w, hw, ih.mpr ⟨u, hu, h⟩⟩

theorem exec_snoc {e : ε} :
    exec step s (es ++ [e]) = some t ↔ ∃ u, exec step s es = some u ∧ step u e = some t := by
  rw [exec_append]
  refine exists_congr fun u => and_congr_right fun _ => ?_
  rw [exec_cons]
  constructor
  · rintro ⟨w, hw, h⟩
    cases h
    exact hw
  · intro h
    exact ⟨t, h, rfl⟩

theorem reach_of_exec (h : exec step s es = some t) : Reach step Free s t := by
  induction es generalizing s with
  | nil =>
    cases h
    exact Reach.refl
  | cons e es ih =>
    obtain ⟨u, hu, h⟩ := exec_cons.mp h
    exact Reach.head trivial hu (ih h)

/-- The run has reached a state with `P`. -/
def Once (step : σ → ε → Option σ) (s : σ) (es : List ε) (P : σ → Prop) : Prop :=
  ∃ before after u, es = before ++ after ∧ exec step s before = some u ∧ P u

/-- The run has made a step, from `u` with label `e` to `v`, with `Q`. -/
def OnceStep (step : σ → ε → Option σ) (s : σ) (es : List ε) (Q : σ → ε → σ → Prop) : Prop :=
  ∃ before e after u v, es = before ++ e :: after ∧ exec step s before = some u ∧
    step u e = some v ∧ Q u e v

variable {P P' : σ → Prop} {Q Q' : σ → ε → σ → Prop}

theorem Once.mono (h : Once step s es P) (hP : ∀ u, Reach step Free s u → P u → P' u) :
    Once step s es P' := by
  obtain ⟨before, after, u, hes, hu, h⟩ := h
  exact ⟨before, after, u, hes, hu, hP u (reach_of_exec hu) h⟩

theorem OnceStep.append (h : OnceStep step s es Q) (es' : List ε) :
    OnceStep step s (es ++ es') Q := by
  obtain ⟨before, e, after, u, v, rfl, hu, hv, hQ⟩ := h
  exact ⟨before, e, after ++ es', u, v, List.append_assoc .., hu, hv, hQ⟩

/-- The state that a step ends in is one of the run. -/
theorem OnceStep.once (h : OnceStep step s es Q)
    (hP : ∀ u e v, Reach step Free s u → step u e = some v → Q u e v → P v) :
    Once step s es P := by
  obtain ⟨before, e, after, u, v, rfl, hu, hv, hQ⟩ := h
  refine ⟨before ++ [e], after, v, ?_, exec_snoc.mpr ⟨u, hu, hv⟩, hP u e v (reach_of_exec hu) hv hQ⟩
  rw [List.append_assoc]
  rfl

theorem OnceStep.or (h : OnceStep step s es fun u e v => Q u e v ∨ Q' u e v) :
    OnceStep step s es Q ∨ OnceStep step s es Q' := by
  obtain ⟨before, e, after, u, v, hes, hu, hv, h | h⟩ := h
  · exact Or.inl ⟨before, e, after, u, v, hes, hu, hv, h⟩
  · exact Or.inr ⟨before, e, after, u, v, hes, hu, hv, h⟩

theorem OnceStep.of_last {e : ε} (hu : exec step s es = some u) (hv : step u e = some v)
    (hQ : Q u e v) : OnceStep step s (es ++ [e]) Q :=
  ⟨es, e, [], u, v, rfl, hu, hv, hQ⟩

/-- **The latch rule.** What was not set at the start, and is set by a step with `Q` only, has been
set by one. -/
theorem onceStep_of_latch (h0 : ¬ P s)
    (hstep : ∀ u e v, Reach step Free s u → step u e = some v → P v → P u ∨ Q u e v)
    (h : exec step s es = some t) (hP : P t) : OnceStep step s es Q := by
  induction es using List.reverseRecOn generalizing t with
  | nil =>
    cases h
    exact absurd hP h0
  | append_singleton es e ih =>
    obtain ⟨u, hu, he⟩ := exec_snoc.mp h
    obtain hP | hQ := hstep u e t (reach_of_exec hu) he hP
    · exact (ih hu hP).append [e]
    · exact OnceStep.of_last hu he hQ

/-- What is set once is set at the end. -/
theorem latch_of_once (hstep : ∀ u e v, Reach step Free s u → step u e = some v → P u → P v)
    (h : exec step s es = some t) (honce : Once step s es P) : P t := by
  obtain ⟨before, after, u, rfl, hu, hP⟩ := honce
  obtain ⟨u', hu', hrest⟩ := exec_append.mp h
  obtain rfl : u = u' := Option.some.inj (hu.symm.trans hu')
  have hinv := (reach_of_exec hrest).invariant (P := fun u => Reach step Free s u ∧ P u)
    ⟨reach_of_exec hu, hP⟩ fun a e b ha _ he => ⟨ha.1.tail trivial he, hstep a e b ha.1 he ha.2⟩
  exact hinv.2

end Transition
