import Mathlib.Data.Int.CardIntervalMod

/-!
# Spreading requests over owners

`count k` is what the owner `k` has. `Even count l`: no two owners of `l` are more than one apart.
`turns l start n` are the owners of `n` requests that go round `l`, from the place `start`.

* `Even.add`: a request that goes to an owner with the least keeps the counts even.
* `count_turns`: going round, every owner has between `n / k` and `⌈n / k⌉` of `n` requests.
-/

namespace Spread

open Function

section Counts

variable {κ : Type*} {count : κ → ℕ} {l : List κ} {k : κ}

def Even (count : κ → ℕ) (l : List κ) : Prop := ∀ a ∈ l, ∀ b ∈ l, count a ≤ count b + 1

variable [DecidableEq κ]

/-- One more for `k`. -/
def add (count : κ → ℕ) (k : κ) : κ → ℕ := update count k (count k + 1)

/-- One less for `k`. -/
def sub (count : κ → ℕ) (k : κ) : κ → ℕ := update count k (count k - 1)

@[simp] theorem add_self : add count k k = count k + 1 := update_self ..

theorem add_of_ne {a : κ} (h : a ≠ k) : add count k a = count a := update_of_ne h ..

theorem sub_add : sub (add count k) k = count := by
  funext a
  unfold sub
  by_cases ha : a = k
  · rw [ha, update_self, add_self, Nat.add_sub_cancel]
  · rw [update_of_ne ha, add_of_ne ha]

theorem Even.add (h : Even count l) (hleast : ∀ b ∈ l, count k ≤ count b) :
    Even (add count k) l := by
  intro a ha b hb
  by_cases hak : a = k
  · rw [hak, add_self]
    by_cases hbk : b = k
    · rw [hbk, add_self]
      exact Nat.le_succ _
    · rw [add_of_ne hbk]
      exact Nat.succ_le_succ (hleast b hb)
  · rw [add_of_ne hak]
    by_cases hbk : b = k
    · rw [hbk, add_self]
      exact (h a ha k (hbk ▸ hb)).trans (Nat.le_succ _)
    · rw [add_of_ne hbk]
      exact h a ha b hb

end Counts

/-! ## Going round -/

section Round

variable {κ : Type*} {l : List κ} {k : κ}

/-- The owner of the request `i`. -/
def turn (l : List κ) (i : ℕ) : Option κ := l[i % l.length]?

def turns (l : List κ) (start n : ℕ) : List (Option κ) :=
  (List.range n).map fun i => turn l (start + i)

theorem turns_succ (l : List κ) (start n : ℕ) :
    turns l start (n + 1) = turn l start :: turns l (start + 1) n := by
  unfold turns
  rw [List.range_succ_eq_map, List.map_cons, List.map_map]
  refine congrArg (turn l start :: ·) (List.map_congr_left fun i _ => ?_)
  exact congrArg (turn l) (Nat.add_right_comm start i 1)

/-- The requests that come round to one place. -/
theorem turn_eq_iff (hnodup : l.Nodup) {p : ℕ} (hp : p < l.length) (start i : ℕ) :
    turn l (start + i) = some l[p] ↔
      i ≡ p + (l.length - start % l.length) [MOD l.length] := by
  have hpos : 0 < l.length := Nat.zero_lt_of_lt hp
  have hround : start + (l.length - start % l.length) ≡ 0 [MOD l.length] := by
    refine Nat.modEq_zero_iff_dvd.mpr ⟨start / l.length + 1, ?_⟩
    have hdiv := Nat.div_add_mod start l.length
    have hlt := Nat.mod_lt start hpos
    rw [Nat.mul_add, Nat.mul_one]
    omega
  unfold turn
  rw [List.getElem?_eq_getElem (Nat.mod_lt _ hpos), Option.some.injEq, hnodup.getElem_inj_iff]
  generalize l.length - start % l.length = c at hround ⊢
  constructor
  · intro h
    have hplace : start + i ≡ p [MOD l.length] := h.trans (Nat.mod_eq_of_lt hp).symm
    calc i = 0 + i := (Nat.zero_add i).symm
      _ ≡ start + c + i [MOD l.length] := hround.symm.add_right i
      _ = start + i + c := Nat.add_right_comm start c i
      _ ≡ p + c [MOD l.length] := hplace.add_right c
  · intro h
    have hplace : start + i ≡ p [MOD l.length] := calc
      start + i ≡ start + (p + c) [MOD l.length] := h.add_left start
      _ = start + c + p := by omega
      _ ≡ 0 + p [MOD l.length] := hround.add_right p
      _ = p := Nat.zero_add p
    exact Eq.trans hplace (Nat.mod_eq_of_lt hp)

variable [DecidableEq κ]

theorem count_turns_eq (hnodup : l.Nodup) {p : ℕ} (hp : p < l.length) (start n : ℕ) :
    (turns l start n).count (some l[p])
      = n.count (· ≡ p + (l.length - start % l.length) [MOD l.length]) := by
  unfold turns
  induction n with
  | zero => rfl
  | succ n ih =>
    rw [List.range_succ, List.map_append, List.count_append, ih, Nat.count_succ, List.map_singleton,
      List.count_singleton]
    by_cases h : turn l (start + n) = some l[p]
    · rw [if_pos (beq_iff_eq.mpr h), if_pos ((turn_eq_iff hnodup hp start n).mp h)]
    · rw [if_neg (fun hb => h (beq_iff_eq.mp hb)),
        if_neg (fun hm => h ((turn_eq_iff hnodup hp start n).mpr hm))]

theorem count_turns (hnodup : l.Nodup) (hk : k ∈ l) (start n : ℕ) :
    n / l.length ≤ (turns l start n).count (some k) ∧
      (turns l start n).count (some k) ≤ (n + l.length - 1) / l.length := by
  obtain ⟨p, hp, rfl⟩ := List.getElem_of_mem hk
  have hpos : 0 < l.length := Nat.zero_lt_of_lt hp
  rw [count_turns_eq hnodup hp, Nat.count_modEq_card _ hpos]
  refine ⟨Nat.le_add_right _ _, ?_⟩
  rw [Nat.le_div_iff_mul_le hpos]
  have hdiv := Nat.div_add_mod n l.length
  split
  case isTrue hrest =>
    rw [Nat.add_mul, Nat.one_mul, Nat.mul_comm]
    omega
  case isFalse =>
    rw [Nat.add_zero, Nat.mul_comm]
    omega

end Round

end Spread
