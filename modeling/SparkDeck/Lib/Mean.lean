import Mathlib.Algebra.Order.BigOperators.Group.List
import Mathlib.Algebra.Order.Field.Basic
import Mathlib.Data.List.Sort
import Mathlib.Tactic.FieldSimp
import Mathlib.Tactic.Linarith
import Mathlib.Tactic.Ring

/-!
# Means and sorted lists

* `mean_perm`, `mean_affine`: a mean does not depend on the order, and commutes with affine maps.
* `le_mean`, `mean_le`: it lies between the bounds of the values.
* `length_filter_between`: of a sorted list, at least those between two positions lie between
  bounds for the values there.
* `sorted_perm`, `sorted_map`: sorting does not depend on the order, and commutes with maps that are
  strictly monotone.
-/

namespace Mean

variable {K : Type*} [Field K] [LinearOrder K] [IsStrictOrderedRing K]

def mean (l : List K) : K := l.sum / l.length

omit [LinearOrder K] [IsStrictOrderedRing K] in
theorem mean_perm {l l' : List K} (h : l.Perm l') : mean l = mean l' := by
  unfold mean
  rw [h.sum_eq, h.length_eq]

omit [LinearOrder K] [IsStrictOrderedRing K] in
theorem sum_affine (a b : K) (l : List K) :
    (l.map fun x => a * x + b).sum = a * l.sum + b * l.length := by
  induction l with
  | nil => simp
  | cons x l ih =>
    rw [List.map_cons, List.sum_cons, ih, List.sum_cons, List.length_cons, Nat.cast_succ]
    ring

theorem mean_affine (a b : K) {l : List K} (h : l ≠ []) :
    mean (l.map fun x => a * x + b) = a * mean l + b := by
  have hlength : (l.length : K) ≠ 0 := Nat.cast_ne_zero.mpr (List.length_pos_iff.mpr h).ne'
  unfold mean
  rw [sum_affine, List.length_map]
  field_simp

theorem le_mean {lo : K} {l : List K} (h : l ≠ []) (hlo : ∀ x ∈ l, lo ≤ x) : lo ≤ mean l := by
  have hlength : (0 : K) < l.length := Nat.cast_pos.mpr (List.length_pos_iff.mpr h)
  have hsum := List.card_nsmul_le_sum l lo hlo
  rw [nsmul_eq_mul] at hsum
  unfold mean
  rw [le_div_iff₀ hlength, mul_comm]
  exact hsum

theorem mean_le {hi : K} {l : List K} (h : l ≠ []) (hhi : ∀ x ∈ l, x ≤ hi) : mean l ≤ hi := by
  have hlength : (0 : K) < l.length := Nat.cast_pos.mpr (List.length_pos_iff.mpr h)
  have hsum := List.sum_le_card_nsmul l hi hhi
  rw [nsmul_eq_mul] at hsum
  unfold mean
  rw [div_le_iff₀ hlength, mul_comm]
  exact hsum

end Mean

namespace Sorted

variable {α β : Type*} [LinearOrder α] [LinearOrder β]

def sorted (l : List α) : List α := l.insertionSort (· ≤ ·)

theorem perm_sorted (l : List α) : (sorted l).Perm l := List.perm_insertionSort _ l

theorem pairwise_sorted (l : List α) : (sorted l).Pairwise (· ≤ ·) :=
  List.pairwise_insertionSort _ l

theorem sorted_perm {l l' : List α} (h : l.Perm l') : sorted l = sorted l' :=
  ((perm_sorted l).trans (h.trans (perm_sorted l').symm)).eq_of_pairwise
    (fun _ _ _ _ => le_antisymm) (pairwise_sorted l) (pairwise_sorted l')

theorem sorted_map {f : α → β} (hf : StrictMono f) (l : List α) :
    sorted (l.map f) = (sorted l).map f :=
  (List.map_insertionSort _ _ f l fun _ _ _ _ => hf.le_iff_le.symm).symm

theorem le_of_le {l : List α} (hl : l.Pairwise (· ≤ ·)) {i j : ℕ} (hij : i ≤ j)
    (hj : j < l.length) : l[i] ≤ l[j] := by
  obtain rfl | hlt := hij.eq_or_lt
  · exact le_rfl
  · exact List.pairwise_iff_getElem.mp hl i j _ hj hlt

/-- The values from the position `a` to the position `b`. -/
theorem length_filter_between {l : List α} (hl : l.Pairwise (· ≤ ·)) {a b : ℕ} {lo hi : α}
    (hab : a ≤ b) (hb : b < l.length) (hlo : lo ≤ l[a]) (hhi : l[b] ≤ hi) :
    b + 1 - a ≤ (l.filter fun x => lo ≤ x ∧ x ≤ hi).length := by
  have hsub : ((l.drop a).take (b + 1 - a)).Sublist l :=
    (List.take_sublist _ _).trans (List.drop_sublist _ _)
  have hall : ((l.drop a).take (b + 1 - a)).filter (fun x => lo ≤ x ∧ x ≤ hi) =
      (l.drop a).take (b + 1 - a) := by
    refine List.filter_eq_self.mpr fun x hx => decide_eq_true ?_
    obtain ⟨i, hi', rfl⟩ := List.getElem_of_mem hx
    rw [List.length_take, List.length_drop] at hi'
    rw [List.getElem_take, List.getElem_drop]
    exact ⟨hlo.trans (le_of_le hl (by omega) (by omega)),
      (le_of_le hl (by omega) hb).trans hhi⟩
  have hlength := (hsub.filter fun x => decide (lo ≤ x ∧ x ≤ hi)).length_le
  rw [hall, List.length_take, List.length_drop] at hlength
  omega

variable {γ : Type*} {key : γ → α}

theorem filter_prefix {l : List γ} (hl : l.Pairwise fun a b => key b ≤ key a)
    {p : γ → Bool} (hp : ∀ a b, key b ≤ key a → p b → p a) : l.filter p <+: l := by
  induction hl with
  | nil => exact List.prefix_rfl
  | @cons a l ha _ ih =>
    by_cases hpa : p a
    · rw [List.filter_cons_of_pos hpa]
      exact (List.prefix_cons_inj a).mpr ih
    · rw [List.filter_eq_nil_iff.mpr]
      · exact List.nil_prefix
      · rintro b hb hpb
        obtain rfl | hb := List.mem_cons.mp hb
        · exact hpa hpb
        · exact hpa (hp a b (ha b hb) hpb)

/-- Where no key is on both sides of the cut, every order by falling keys has the same start. -/
theorem take_perm {l m : List γ} (h : l.Perm m) (hl : l.Pairwise fun a b => key b ≤ key a) {n : ℕ}
    (hm : ∀ a ∈ m.take n, ∀ b ∈ m.drop n, key b < key a) : (l.take n).Perm (m.take n) := by
  let p : γ → Bool := fun a => (m.drop n).all fun b => key b < key a
  have hfilter : m.filter p = m.take n := by
    conv_lhs => rw [← List.take_append_drop n m]
    rw [List.filter_append, List.filter_eq_self.mpr, List.filter_eq_nil_iff.mpr, List.append_nil]
    · intro b hb hpb
      exact lt_irrefl _ (of_decide_eq_true (List.all_eq_true.mp hpb b hb))
    · exact fun a ha => List.all_eq_true.mpr fun b hb => decide_eq_true (hm a ha b hb)
  have hperm : (l.filter p).Perm (m.take n) := hfilter ▸ h.filter p
  have hstart : l.filter p <+: l := filter_prefix hl fun a b hab hpb =>
    List.all_eq_true.mpr fun c hc =>
      decide_eq_true ((of_decide_eq_true (List.all_eq_true.mp hpb c hc)).trans_le hab)
  rw [List.prefix_iff_eq_take, hperm.length_eq, List.length_take, ← h.length_eq] at hstart
  rwa [hstart, ← List.take_eq_take_min] at hperm

end Sorted
