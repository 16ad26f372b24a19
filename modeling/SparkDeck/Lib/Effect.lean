import Mathlib.Logic.Basic

/-!
# Programs with a state that survives an error

A program is an `EStateM ε σ α`: it ends with a value or raises, and the state it leaves counts in
both cases. `Spec P m Q R` says that from a state that meets `P`, `m` ends in one that meets `Q`, or
raises in one that meets `R`.

* `Spec.conseq`, `Spec.mono`, `Spec.errs`: the rule of consequence.
* `Spec.bind`, `Spec.tryCatch`, `Spec.ite`: the rules, one for each way to build a program.
* `Tracks P m x Q R`: from a state that meets `P`, `m` raises exactly if `x` does, which has no
  state; `Tracks.bind` and `Tracks.ite` are its rules, `Tracks.ok` and `Tracks.error`
  what they give for a known `x`.
* `bind_ok`, `bind_error`, `tryCatch_ok`, `tryCatch_error`: a program is run from one state.
-/

namespace Effect

universe u

variable {ε σ α β : Type u}

/-- From a state that meets `P`: an end that meets `Q`, or an error that meets `R`. -/
def Spec (P : σ → Prop) (m : EStateM ε σ α) (Q : α → σ → Prop) (R : σ → Prop) : Prop :=
  ∀ s, P s → match m s with
    | .ok a t => Q a t
    | .error _ t => R t

section Rules

variable {P P' : σ → Prop} {m : EStateM ε σ α} {Q Q' : α → σ → Prop} {R R' : σ → Prop}

theorem Spec.conseq (h : Spec P m Q R) (hP : ∀ s, P' s → P s) (hQ : ∀ a s, Q a s → Q' a s)
    (hR : ∀ s, R s → R' s) : Spec P' m Q' R' := by
  intro s hs
  have := h s (hP s hs)
  cases hm : m s with
  | ok a t =>
    rw [hm] at this
    exact hQ a t this
  | error e t =>
    rw [hm] at this
    exact hR t this

theorem Spec.mono (h : Spec P m Q R) (hQ : ∀ a s, Q a s → Q' a s) : Spec P m Q' R :=
  h.conseq (fun _ h => h) hQ fun _ h => h

theorem Spec.errs (h : Spec P m Q R) (hR : ∀ s, R s → R' s) : Spec P m Q R' :=
  h.conseq (fun _ h => h) (fun _ _ h => h) hR

theorem Spec.pure {a : α} (h : ∀ s, P s → Q a s) : Spec P (pure a : EStateM ε σ α) Q R :=
  fun s hs => h s hs

theorem Spec.throw {e : ε} (h : ∀ s, P s → R s) : Spec P (throw e : EStateM ε σ α) Q R :=
  fun s hs => h s hs

/-- A program that is not reached. -/
theorem Spec.unreached : Spec (fun _ => False) m Q R := fun _ h => h.elim

theorem Spec.bind {f : α → EStateM ε σ β} {S : β → σ → Prop} (h : Spec P m Q R)
    (hf : ∀ a, Spec (Q a) (f a) S R) : Spec P (m >>= f) S R := by
  intro s hs
  have hm := h s hs
  change match EStateM.bind m f s with
    | .ok a t => S a t
    | .error _ t => R t
  unfold EStateM.bind
  cases hms : m s with
  | ok a t =>
    rw [hms] at hm
    exact hf a t hm
  | error e t =>
    rw [hms] at hm
    exact hm

theorem Spec.tryCatch {f : ε → EStateM ε σ α} {K : σ → Prop} (h : Spec P m Q K)
    (hf : ∀ e, Spec K (f e) Q R) :
    Spec P (tryCatch m f) Q R := by
  intro s hs
  have hm := h s hs
  change match EStateM.tryCatch m f s with
    | .ok a t => Q a t
    | .error _ t => R t
  unfold EStateM.tryCatch
  cases hms : m s with
  | ok a t =>
    rw [hms] at hm
    exact hm
  | error e t =>
    rw [hms] at hm
    exact hf e t hm

theorem Spec.ite {c : Prop} [Decidable c] {m' : EStateM ε σ α} (h : c → Spec P m Q R)
    (h' : ¬c → Spec P m' Q R) : Spec P (if c then m else m') Q R := by
  by_cases hc : c
  · rw [if_pos hc]
    exact h hc
  · rw [if_neg hc]
    exact h' hc

end Rules

/-! ## Runs from one state -/

section Runs

variable {m : EStateM ε σ α} {s t : σ} {a : α} {e : ε} {f : α → EStateM ε σ β}

theorem bind_ok (h : m s = .ok a t) : (m >>= f) s = f a t := by
  change EStateM.bind m f s = f a t
  unfold EStateM.bind
  rw [h]

theorem bind_error (h : m s = .error e t) : (m >>= f) s = .error e t := by
  change EStateM.bind m f s = .error e t
  unfold EStateM.bind
  rw [h]

theorem tryCatch_ok {f : ε → EStateM ε σ α} (h : m s = .ok a t) :
    (tryCatch m f : EStateM ε σ α) s = .ok a t := by
  change EStateM.tryCatch m f s = .ok a t
  unfold EStateM.tryCatch
  rw [h]

theorem tryCatch_error {f : ε → EStateM ε σ α} (h : m s = .error e t) :
    (tryCatch m f : EStateM ε σ α) s = f e t := by
  change EStateM.tryCatch m f s = f e t
  unfold EStateM.tryCatch
  rw [h]
  rfl

end Runs

/-! ## Programs that raise as a pure one does -/

section Tracks

variable {γ γ' δ : Type u} {P R : σ → Prop} {m : EStateM ε σ α} {x : Except δ β}
  {Q : α → β → σ → Prop}

/-- From a state that meets `P`: ends that meet `Q`, or errors of both. -/
def Tracks (P : σ → Prop) (m : EStateM ε σ α) (x : Except δ β) (Q : α → β → σ → Prop)
    (R : σ → Prop) : Prop :=
  ∀ s, P s → match m s, x with
    | .ok a t, .ok b => Q a b t
    | .error _ t, .error _ => R t
    | _, _ => False

theorem Tracks.pure {a : α} {b : β} (h : ∀ s, P s → Q a b s) :
    Tracks P (pure a : EStateM ε σ α) (Pure.pure b : Except δ β) Q R := fun s hs => h s hs

theorem Tracks.bind {f : α → EStateM ε σ γ} {g : β → Except δ γ'} {S : γ → γ' → σ → Prop}
    (h : Tracks P m x Q R) (hf : ∀ a b, Tracks (Q a b) (f a) (g b) S R) :
    Tracks P (m >>= f) (x >>= g) S R := by
  intro s hs
  have hm := h s hs
  cases hms : m s with
  | ok a t =>
    rw [bind_ok hms]
    cases x with
    | ok b =>
      rw [hms] at hm
      exact hf a b t hm
    | error d =>
      rw [hms] at hm
      exact hm.elim
  | error e t =>
    rw [bind_error hms]
    cases x with
    | ok b =>
      rw [hms] at hm
      exact hm.elim
    | error d =>
      rw [hms] at hm
      exact hm

/-- A step that does not raise and reads nothing. -/
theorem Tracks.after {S : β → γ → σ → Prop} {y : Except δ γ} {f : α → EStateM ε σ β}
    {T : α → σ → Prop} (h : Spec P m T fun _ => False) (hf : ∀ a, Tracks (T a) (f a) y S R) :
    Tracks P (m >>= f) y S R := by
  intro s hs
  have hm := h s hs
  cases hms : m s with
  | ok a t =>
    rw [hms] at hm
    rw [bind_ok hms]
    exact hf a t hm
  | error e t =>
    rw [hms] at hm
    exact hm.elim

theorem Tracks.ite {c : Prop} [Decidable c] {m' : EStateM ε σ α} {x' : Except δ β}
    (h : c → Tracks P m x Q R) (h' : ¬c → Tracks P m' x' Q R) :
    Tracks P (if c then m else m') (if c then x else x') Q R := by
  by_cases hc : c
  · rw [if_pos hc, if_pos hc]
    exact h hc
  · rw [if_neg hc, if_neg hc]
    exact h' hc

theorem Tracks.ok {b : β} (h : Tracks P m (Except.ok b : Except δ β) Q R) :
    Spec P m (fun a => Q a b) (fun _ => False) := by
  intro s hs
  have hm := h s hs
  cases hms : m s <;> rw [hms] at hm
  · exact hm
  · exact hm

theorem Tracks.error {d : δ} (h : Tracks P m (Except.error d : Except δ β) Q R) :
    Spec P m (fun _ _ => False) R := by
  intro s hs
  have hm := h s hs
  cases hms : m s <;> rw [hms] at hm
  · exact hm
  · exact hm

end Tracks

end Effect
