import Mathlib.Data.List.GetD
import Mathlib.Tactic.IntervalCases
import SparkDeck.Lib.Mean

/-!
# The outlier-filtered mean

Model of `_outlier_filtered_mean` (`sparkdeck/storage.py`) over exact rationals, with
`statistics.fmean` and the inclusive method of `statistics.quantiles`.

* `half_retained`: at least half of the values lie within the fence.
* `outlierFilteredMean_robust`: the fence keeps at least half of the values, the mean lies between
  two of them, does not depend on their order, and commutes with positive scaling and translation.
-/

namespace SparkDeck.Community

open Mean Sorted

/-- Position `i` of `statistics.quantiles(data, n=n, method="inclusive")`, counted from 1. -/
def quantile (data : List ℚ) (n i : ℕ) : ℚ :=
  let data := sorted data
  let m := data.length - 1
  let j := i * m / n
  let delta := i * m % n
  (data.getD j 0 * (n - delta) + data.getD (j + 1) 0 * delta) / n

def lowerFence (values : List ℚ) : ℚ :=
  quantile values 4 1 - 3 / 2 * (quantile values 4 3 - quantile values 4 1)

def upperFence (values : List ℚ) : ℚ :=
  quantile values 4 3 + 3 / 2 * (quantile values 4 3 - quantile values 4 1)

/-- The values that the mean is taken of. -/
def retained (values : List ℚ) : List ℚ :=
  if values.length < 4 then values
  else values.filter fun value => lowerFence values ≤ value ∧ value ≤ upperFence values

/-- `_outlier_filtered_mean` -/
def outlierFilteredMean (values : List ℚ) : ℚ :=
  if retained values = [] then mean values else mean (retained values)

/-! ## The fence -/

theorem quantile_perm {l l' : List ℚ} (h : l.Perm l') (n i : ℕ) :
    quantile l n i = quantile l' n i := by
  unfold quantile
  rw [sorted_perm h]

theorem getD_map_affine (a b : ℚ) {l : List ℚ} {j : ℕ} (hj : j < l.length) :
    (l.map fun x => a * x + b).getD j 0 = a * l.getD j 0 + b := by
  rw [List.getD_eq_getElem _ _ (by rw [List.length_map]; exact hj), List.getElem_map,
    List.getD_eq_getElem _ _ hj]

/-- A quartile of scaled and translated values. -/
theorem quantile_affine {a : ℚ} (ha : 0 < a) (b : ℚ) {l : List ℚ} (hl : 4 ≤ l.length) {i : ℕ}
    (hi : i = 1 ∨ i = 3) : quantile (l.map fun x => a * x + b) 4 i = a * quantile l 4 i + b := by
  have hmono : StrictMono fun x : ℚ => a * x + b := fun x y hxy => by
    have := mul_lt_mul_of_pos_left hxy ha
    linarith
  unfold quantile
  dsimp only
  rw [sorted_map hmono, List.length_map]
  have hlength : (sorted l).length = l.length := (perm_sorted l).length_eq
  have hlt : i * ((sorted l).length - 1) / 4 + 1 < (sorted l).length := by
    obtain rfl | rfl := hi <;> omega
  rw [getD_map_affine a b (Nat.lt_of_succ_lt hlt), getD_map_affine a b hlt]
  push_cast
  ring

/-- The values at the quartiles, by the length of the list. -/
theorem fence_window {l : List ℚ} (hl : 4 ≤ l.length) :
    ∃ a b, a ≤ b ∧ ∃ hb : b < (sorted l).length, l.length ≤ 2 * (b + 1 - a) ∧
      (∀ ha : a < (sorted l).length, lowerFence l ≤ (sorted l)[a]) ∧
      (sorted l)[b] ≤ upperFence l := by
  have hlength : (sorted l).length = l.length := (perm_sorted l).length_eq
  have hle : ∀ i j : ℕ, i ≤ j → j < (sorted l).length →
      (sorted l).getD i 0 ≤ (sorted l).getD j 0 := by
    intro i j hij hj
    rw [List.getD_eq_getElem _ _ (by omega), List.getD_eq_getElem _ _ hj]
    exact le_of_le (pairwise_sorted l) hij hj
  obtain ⟨k, d, hd, hm⟩ : ∃ k d, d < 4 ∧ l.length - 1 = 4 * k + d :=
    ⟨(l.length - 1) / 4, (l.length - 1) % 4, Nat.mod_lt _ (by decide), by omega⟩
  -- the positions of the quartiles, and how far they lie to the next value
  have hq1 : quantile l 4 1 =
      ((sorted l).getD k 0 * (4 - d) + (sorted l).getD (k + 1) 0 * d) / 4 := by
    unfold quantile
    dsimp only
    rw [hlength, hm, show 1 * (4 * k + d) / 4 = k by omega, show 1 * (4 * k + d) % 4 = d by omega]
    norm_num
  have hq3 : quantile l 4 3 = ((sorted l).getD (3 * k + 3 * d / 4) 0 * (4 - (3 * d % 4 : ℕ)) +
      (sorted l).getD (3 * k + 3 * d / 4 + 1) 0 * (3 * d % 4 : ℕ)) / 4 := by
    unfold quantile
    dsimp only
    rw [hlength, hm, show 3 * (4 * k + d) / 4 = 3 * k + 3 * d / 4 by omega,
      show 3 * (4 * k + d) % 4 = 3 * d % 4 by omega]
    norm_num
  have hwindow : ∀ a b, a ≤ b → b < (sorted l).length → l.length ≤ 2 * (b + 1 - a) →
      lowerFence l ≤ (sorted l).getD a 0 → (sorted l).getD b 0 ≤ upperFence l →
      ∃ a b, a ≤ b ∧ ∃ hb : b < (sorted l).length, l.length ≤ 2 * (b + 1 - a) ∧
        (∀ ha : a < (sorted l).length, lowerFence l ≤ (sorted l)[a]) ∧
        (sorted l)[b] ≤ upperFence l := by
    intro a b hab hb hhalf hlo hhi
    refine ⟨a, b, hab, hb, hhalf, fun ha => ?_, ?_⟩
    · rwa [List.getD_eq_getElem _ _ ha] at hlo
    · rwa [List.getD_eq_getElem _ _ hb] at hhi
  unfold lowerFence upperFence at hwindow ⊢
  rw [hq1, hq3] at hwindow ⊢
  have hlower := hle k (k + 1) (Nat.le_succ k) (by omega)
  interval_cases d
  · have hmiddle := hle k (3 * k) (by omega) (by omega)
    refine hwindow k (3 * k) (by omega) (by omega) (by omega) ?_ ?_ <;>
      norm_num [-List.getD_eq_getElem?_getD] <;> linarith
  · have hmiddle := hle (k + 1) (3 * k) (by omega) (by omega)
    have hupper := hle (3 * k) (3 * k + 1) (by omega) (by omega)
    refine hwindow k (3 * k + 1) (by omega) (by omega) (by omega) ?_ ?_ <;>
      norm_num [-List.getD_eq_getElem?_getD] <;> linarith
  · have hmiddle := hle (k + 1) (3 * k + 1) (by omega) (by omega)
    have hupper := hle (3 * k + 1) (3 * k + 2) (by omega) (by omega)
    refine hwindow k (3 * k + 2) (by omega) (by omega) (by omega) ?_ ?_ <;>
      norm_num [-List.getD_eq_getElem?_getD] <;> linarith
  · have hmiddle := hle (k + 1) (3 * k + 2) (by omega) (by omega)
    have hupper := hle (3 * k + 2) (3 * k + 3) (by omega) (by omega)
    refine hwindow (k + 1) (3 * k + 2) (by omega) (by omega) (by omega) ?_ ?_ <;>
      norm_num [-List.getD_eq_getElem?_getD] <;> linarith

/-- At least half of the values are retained. -/
theorem half_retained (values : List ℚ) : values.length ≤ 2 * (retained values).length := by
  unfold retained
  split
  case isTrue => omega
  case isFalse hlong =>
    obtain ⟨a, b, hab, hb, hhalf, hlo, hhi⟩ := fence_window (Nat.le_of_not_lt hlong)
    have hbetween := length_filter_between (pairwise_sorted values) hab hb (hlo (by omega)) hhi
    rw [((perm_sorted values).filter _).length_eq] at hbetween
    omega

theorem retained_ne_nil {values : List ℚ} (h : values ≠ []) : retained values ≠ [] := by
  intro hnil
  have hhalf := half_retained values
  rw [hnil, List.length_nil] at hhalf
  exact h (List.length_eq_zero_iff.mp (by omega))

theorem outlierFilteredMean_eq {values : List ℚ} (h : values ≠ []) :
    outlierFilteredMean values = mean (retained values) := if_neg (retained_ne_nil h)

theorem retained_sublist (values : List ℚ) : (retained values).Sublist values := by
  unfold retained
  split
  · exact List.Sublist.refl values
  · exact List.filter_sublist

theorem retained_perm {l l' : List ℚ} (h : l.Perm l') : (retained l).Perm (retained l') := by
  unfold retained lowerFence upperFence
  rw [h.length_eq, quantile_perm h, quantile_perm h]
  split
  · exact h
  · exact h.filter _

theorem retained_affine {a : ℚ} (ha : 0 < a) (b : ℚ) (l : List ℚ) :
    retained (l.map fun x => a * x + b) = (retained l).map fun x => a * x + b := by
  unfold retained
  rw [List.length_map]
  split
  case isTrue => rfl
  case isFalse hlong =>
    have hlong := Nat.le_of_not_lt hlong
    rw [List.filter_map]
    refine congrArg _ (List.filter_congr fun x _ => ?_)
    have hlower : lowerFence (l.map fun x => a * x + b) = a * lowerFence l + b := by
      unfold lowerFence
      rw [quantile_affine ha b hlong (Or.inl rfl), quantile_affine ha b hlong (Or.inr rfl)]
      ring
    have hupper : upperFence (l.map fun x => a * x + b) = a * upperFence l + b := by
      unfold upperFence
      rw [quantile_affine ha b hlong (Or.inl rfl), quantile_affine ha b hlong (Or.inr rfl)]
      ring
    refine decide_eq_decide.mpr ?_
    rw [hlower, hupper, add_le_add_iff_right, add_le_add_iff_right, mul_le_mul_iff_right₀ ha,
      mul_le_mul_iff_right₀ ha]

/-- The fence keeps at least half of the values; the mean lies between two of them, whatever their
order is, and is scaled and translated with them. -/
theorem outlierFilteredMean_robust (values : List ℚ) (h : values ≠ []) :
    retained values ≠ [] ∧ values.length ≤ 2 * (retained values).length ∧
    (∀ lo hi, (∀ x ∈ values, lo ≤ x ∧ x ≤ hi) →
      lo ≤ outlierFilteredMean values ∧ outlierFilteredMean values ≤ hi) ∧
    (∀ values', values.Perm values' → outlierFilteredMean values' = outlierFilteredMean values) ∧
    ∀ a b : ℚ, 0 < a →
      outlierFilteredMean (values.map fun x => a * x + b) = a * outlierFilteredMean values + b := by
  have hne := retained_ne_nil h
  have heq := outlierFilteredMean_eq h
  refine ⟨hne, half_retained values, fun lo hi hbounds => ?_, fun values' hperm => ?_,
    fun a b ha => ?_⟩
  · have hall : ∀ x ∈ retained values, lo ≤ x ∧ x ≤ hi := fun x hx =>
      hbounds x ((retained_sublist values).subset hx)
    rw [heq]
    exact ⟨le_mean hne fun x hx => (hall x hx).1, mean_le hne fun x hx => (hall x hx).2⟩
  · have hne' : values' ≠ [] := fun hnil => h (hnil ▸ hperm).eq_nil
    rw [heq, outlierFilteredMean_eq hne']
    exact (mean_perm (retained_perm hperm)).symm
  · have hne' : (values.map fun x => a * x + b) ≠ [] := fun hnil => h (List.map_eq_nil_iff.mp hnil)
    rw [outlierFilteredMean_eq hne', retained_affine ha b, mean_affine a b hne, heq]

/-- Of five speeds one is far off. -/
theorem outlierFilteredMean_robust_five :
    retained [10, 12, 11, 13, 1000] = [10, 12, 11, 13] ∧
    retained [10, 12, 11, 13, 1000] ≠ [] ∧
    outlierFilteredMean ([10, 12, 11, 13, 1000].map fun x => 2 * x + 1) =
      2 * outlierFilteredMean [10, 12, 11, 13, 1000] + 1 := by
  have hrobust := outlierFilteredMean_robust [10, 12, 11, 13, 1000] (List.cons_ne_nil _ _)
  exact ⟨by decide +kernel, hrobust.1, hrobust.2.2.2.2 2 1 (by norm_num)⟩

end SparkDeck.Community
