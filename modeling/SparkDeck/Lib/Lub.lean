import Mathlib.Data.Prod.Lex
import Mathlib.Order.Bounds.Basic

/-!
# Least upper bounds of what was received

A replica that joins what it receives holds the least upper bound of it, whatever the order and the
multiplicity. The joins below are given by their bounds, since a lexicographic product of a linear
order and a semilattice is not a semilattice in general.

* `isLUB_lex`: the join of two elements of the same first component.
* `IsLUB.received`: one more element joined.
* `IsLUB.eq_of_cofinal`: two sets that bound each other have one least upper bound.
-/

variable {α β : Type*}

theorem isLUB_pair_of_le [Preorder α] {a b : α} (h : a ≤ b) : IsLUB {a, b} b := by
  refine ⟨?_, fun c hc => hc (by simp)⟩
  rintro x (rfl | rfl)
  · exact h
  · exact le_refl _

theorem isLUB_lex [LinearOrder α] [SemilatticeSup β] (a : α) (x y : β) :
    IsLUB {toLex (a, x), toLex (a, y)} (toLex (a, x ⊔ y)) := by
  refine isLUB_iff_le_iff.mpr fun z => ?_
  obtain ⟨⟨b, w⟩, rfl⟩ : ∃ p : α × β, toLex p = z := ⟨ofLex z, rfl⟩
  have hle : ∀ v : β, toLex (a, v) ≤ toLex (b, w) ↔ a < b ∨ a = b ∧ v ≤ w := fun v =>
    Prod.Lex.toLex_le_toLex
  have hbound : toLex (b, w) ∈ upperBounds {toLex (a, x), toLex (a, y)} ↔
      toLex (a, x) ≤ toLex (b, w) ∧ toLex (a, y) ≤ toLex (b, w) := by
    simp [upperBounds]
  refine Iff.trans ?_ hbound.symm
  rw [hle, hle, hle, sup_le_iff]
  tauto

/-- What was joined so far and one more element. -/
theorem IsLUB.received [Preorder α] {S : Set α} {a b c : α} (hS : IsLUB S a)
    (h : IsLUB {a, b} c) : IsLUB (insert b S) c := by
  refine isLUB_iff_le_iff.mpr fun x => ?_
  rw [isLUB_iff_le_iff.mp h x]
  constructor
  · rintro hx y (rfl | hy)
    · exact hx (by simp)
    · exact (hS.1 hy).trans (hx (by simp))
  · rintro hx y (rfl | rfl)
    · exact hS.2 fun z hz => hx (Set.mem_insert_of_mem _ hz)
    · exact hx (Set.mem_insert _ _)

theorem IsLUB.eq_of_cofinal [PartialOrder α] {S T : Set α} {a b : α} (hS : IsLUB S a)
    (hT : IsLUB T b) (hST : IsCofinalFor S T) (hTS : IsCofinalFor T S) : a = b :=
  le_antisymm (hS.2 (upperBounds_mono_of_isCofinalFor hST hT.1))
    (hT.2 (upperBounds_mono_of_isCofinalFor hTS hS.1))
