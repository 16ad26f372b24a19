import Mathlib.Data.Nat.Count

/-!
# Tallies

Reservations are numbered in the order they are taken; `Nat.count p n` is how many of the first `n`
have `p`. A counter that goes up and down with its reservations is exact when it is such a count,
and the truncated subtraction of a release then never bites.

* `count_drop`: one reservation ends, the others stay as they are.
* `count_eq_card_owners`: when no owner has two, the reservations count their owners.
-/

namespace Tally

variable {n : ℕ} {p q : ℕ → Prop} [DecidablePred p] [DecidablePred q]

theorem count_congr (h : ∀ i < n, p i ↔ q i) : Nat.count p n = Nat.count q n :=
  le_antisymm (Nat.count_mono_left fun i hi => (h i hi).mp)
    (Nat.count_mono_left fun i hi => (h i hi).mpr)

/-- One reservation ends, the others stay as they are. -/
theorem count_drop {i : ℕ} (hi : i < n) (hp : p i) (hq : ¬q i) (h : ∀ j < n, j ≠ i → (p j ↔ q j)) :
    Nat.count p n = Nat.count q n + 1 := by
  induction n with
  | zero => omega
  | succ n ih =>
    rw [Nat.count_succ, Nat.count_succ]
    by_cases hn : n = i
    · subst hn
      have hsame : Nat.count p n = Nat.count q n :=
        count_congr fun j hj => h j (by omega) (by omega)
      rw [hsame, if_pos hp, if_neg hq]
    · have hrest := ih (by omega) fun j hj hne => h j (by omega) hne
      have hlast : p n ↔ q n := h n (by omega) hn
      simp only [hrest, hlast]
      omega

/-- When an owner has at most one reservation with `p`, they are as many as the owners that have
one. -/
theorem count_eq_card_owners {owner : ℕ → ℕ} {m : ℕ} (hown : ∀ i < n, p i → owner i < m)
    (hone : ∀ i < n, ∀ j < n, p i → p j → owner i = owner j → i = j) :
    Nat.count p n = ((Finset.range m).filter fun r => ∃ i < n, owner i = r ∧ p i).card := by
  have himage : (Finset.range m).filter (fun r => ∃ i < n, owner i = r ∧ p i) =
      ((Finset.range n).filter p).image owner := by
    ext r
    simp only [Finset.mem_filter, Finset.mem_range, Finset.mem_image]
    constructor
    · rintro ⟨-, i, hi, hr, hp⟩
      exact ⟨i, ⟨hi, hp⟩, hr⟩
    · rintro ⟨i, ⟨hi, hp⟩, rfl⟩
      exact ⟨hown i hi hp, i, hi, rfl, hp⟩
  rw [Nat.count_eq_card_filter_range, himage, Finset.card_image_of_injOn]
  intro i hi j hj hij
  rw [Finset.mem_coe, Finset.mem_filter, Finset.mem_range] at hi hj
  exact hone i hi.1 j hj.1 hi.2 hj.2 hij

end Tally
