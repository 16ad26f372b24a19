import Mathlib.Data.List.Basic

/-!
# Machines with output

`step s i` is the next state and the output of a machine. `transcript step s is` pairs every input
of a run with its output, and `final step s is` is the state after the run.

* `between`: what an output leaves true of the state, and an input without a cause keeps, holds
  where a later input is read, unless a cause was read in between.
* `transcript_view`: if what is seen of the output depends only on a part of the state, and so does
  that part of the next one, two runs that start with the same part show the same.
-/

namespace Transcript

variable {σ ι ω : Type*} {step : σ → ι → σ × ω} {s : σ} {i : ι} {is js : List ι}

def transcript (step : σ → ι → σ × ω) : σ → List ι → List (ι × ω)
  | _, [] => []
  | s, i :: is => (i, (step s i).2) :: transcript step (step s i).1 is

def final (step : σ → ι → σ × ω) (s : σ) (is : List ι) : σ := is.foldl (fun s i => (step s i).1) s

/-- A transcript that is cut in two is made by the two halves of its inputs. -/
theorem exists_of_append {a b : List (ι × ω)} (h : transcript step s is = a ++ b) :
    ∃ is₁ is₂, is = is₁ ++ is₂ ∧ transcript step s is₁ = a ∧
      transcript step (final step s is₁) is₂ = b := by
  induction a generalizing s is with
  | nil => exact ⟨[], is, rfl, rfl, h⟩
  | cons x a ih =>
    cases is with
    | nil => exact absurd h (List.cons_ne_nil _ _).symm
    | cons i is =>
      obtain ⟨hx, hrest⟩ := List.cons_eq_cons.mp h
      obtain ⟨is₁, is₂, rfl, ha, hb⟩ := ih hrest
      refine ⟨i :: is₁, is₂, rfl, ?_, hb⟩
      rw [← hx, ← ha]
      rfl

/-- The first entry of a transcript is made by the state that it starts in. -/
theorem exists_of_cons {x : ι × ω} {b : List (ι × ω)} (h : transcript step s is = x :: b) :
    ∃ i js, is = i :: js ∧ x = (i, (step s i).2) ∧ transcript step (step s i).1 js = b := by
  cases is with
  | nil => exact absurd h (List.cons_ne_nil _ _).symm
  | cons i is =>
    obtain ⟨hx, hrest⟩ := List.cons_eq_cons.mp h
    exact ⟨i, is, rfl, hx.symm, hrest⟩

variable {P : σ → Prop} {A Q : ι × ω → Prop}

/-- What every input without a cause keeps is kept by a run without one. -/
theorem final_of_forall (hkeep : ∀ u i, P u → ¬ Q (i, (step u i).2) → P (step u i).1) (hs : P s)
    (h : ∀ z ∈ transcript step s is, ¬ Q z) : P (final step s is) := by
  induction is generalizing s with
  | nil => exact hs
  | cons i is ih =>
    have hi : ¬ Q (i, (step s i).2) := h _ List.mem_cons_self
    exact ih (hkeep s i hs hi) fun z hz => h z (List.mem_cons_of_mem _ hz)

/-- **The rule for two entries of a transcript.** Either a cause stands between them, or what the
first left true holds where the second is made. -/
theorem between (hfrom : ∀ u i, A (i, (step u i).2) → P (step u i).1)
    (hkeep : ∀ u i, P u → ¬ Q (i, (step u i).2) → P (step u i).1)
    {a mid c : List (ι × ω)} {x y : ι × ω}
    (h : transcript step s is = a ++ x :: (mid ++ y :: c)) (hx : A x) (hmid : ∀ z ∈ mid, ¬ Q z) :
    ∃ u i, P u ∧ y = (i, (step u i).2) := by
  obtain ⟨is₁, is₂, -, -, h₁⟩ := exists_of_append h
  obtain ⟨i, is₃, -, rfl, h₂⟩ := exists_of_cons h₁
  obtain ⟨is₄, is₅, -, rfl, h₃⟩ := exists_of_append h₂
  obtain ⟨j, is₆, -, rfl, -⟩ := exists_of_cons h₃
  exact ⟨_, j, final_of_forall hkeep (hfrom _ i hx) hmid, rfl⟩

variable {τ χ : Type*} (part : σ → τ) {view : ω → χ}

/-- A run depends, as far as it is seen, on the part of the state that its steps look at. -/
theorem transcript_view
    (hstep : ∀ u v i, part u = part v →
      part (step u i).1 = part (step v i).1 ∧ view (step u i).2 = view (step v i).2)
    {u v : σ} (h : part u = part v) :
    ((transcript step u is).map fun x => (x.1, view x.2)) =
      (transcript step v is).map fun x => (x.1, view x.2) := by
  induction is generalizing u v with
  | nil => rfl
  | cons i is ih =>
    obtain ⟨hpart, hview⟩ := hstep u v i h
    calc _ = (i, view (step u i).2) ::
          (transcript step (step u i).1 is).map fun x => (x.1, view x.2) := rfl
      _ = (i, view (step v i).2) ::
          (transcript step (step v i).1 is).map fun x => (x.1, view x.2) := by rw [hview, ih hpart]

/-- What holds of every step on an input of a run holds of every entry of its transcript. -/
theorem forall_transcript {R : ι × ω → Prop} (h : ∀ u, ∀ i ∈ is, R (i, (step u i).2)) :
    ∀ x ∈ transcript step s is, R x := by
  induction is generalizing s with
  | nil => exact fun x hx => absurd hx List.not_mem_nil
  | cons i is ih =>
    intro x hx
    obtain rfl | hx := List.mem_cons.mp hx
    · exact h s i List.mem_cons_self
    · exact ih (fun u j hj => h u j (List.mem_cons_of_mem _ hj)) x hx

/-- A part of the state that no step of a run changes is left by the run. -/
theorem part_final (h : ∀ u, ∀ i ∈ is, part (step u i).1 = part u) :
    part (final step s is) = part s := by
  induction is generalizing s with
  | nil => rfl
  | cons i is ih =>
    calc part (final step (step s i).1 is) = part (step s i).1 :=
          ih fun u j hj => h u j (List.mem_cons_of_mem _ hj)
      _ = part s := h s i List.mem_cons_self

end Transcript
