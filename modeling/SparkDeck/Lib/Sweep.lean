import Mathlib.MeasureTheory.Measure.Lebesgue.Basic
import Mathlib.MeasureTheory.Measure.Real

/-!
# Stretches of constant rate, swept backward

A `Stretch` emits at a constant rate from its start to its stop. Of a list of them, `emitted` is
what they emit after an instant and `liveAfter` how long at least one of them runs after it: the
Lebesgue measure of that part of the union of the intervals. Between two instants with no start and
no stop between them (`Clear`) both are affine:

* `emitted_segment`: the emission grows by the sum of the rates that cover the segment (`rateAt`).
* `liveAfter_segment`: the running time grows by the segment's length if that sum is positive.
* `rateAt_eq`, `beyond_eq_rateAt`: that sum can be carried backward, one instant after the other, by
  what starts and stops there (`edge`).
-/

namespace Sweep

open MeasureTheory

structure Stretch where
  start : ℚ
  stop : ℚ
  rate : ℚ
  ordered : start < stop
  positive : 0 < rate

/-- How long the stretch runs after `t`. -/
def Stretch.after (s : Stretch) (t : ℚ) : ℚ := max 0 (s.stop - max s.start t)

def Stretch.Covers (s : Stretch) (t : ℚ) : Prop := s.start < t ∧ t ≤ s.stop

instance (s : Stretch) (t : ℚ) : Decidable (s.Covers t) :=
  inferInstanceAs (Decidable (s.start < t ∧ t ≤ s.stop))

def Stretch.span (s : Stretch) : Set ℝ := Set.Ioc (s.start : ℝ) (s.stop : ℝ)

def emitted (l : List Stretch) (t : ℚ) : ℚ := (l.map fun s => s.rate * s.after t).sum

def total (l : List Stretch) : ℚ := (l.map fun s => s.rate * (s.stop - s.start)).sum

def rateAt (l : List Stretch) (t : ℚ) : ℚ := (l.map fun s => if s.Covers t then s.rate else 0).sum

/-- The rate of a stretch that stops after `t`, less that of one that starts after it. -/
def Stretch.beyond (s : Stretch) (t : ℚ) : ℚ :=
  (if t < s.stop then s.rate else 0) - if t < s.start then s.rate else 0

/-- What the rates change by at `t`. -/
def Stretch.edge (s : Stretch) (t : ℚ) : ℚ :=
  (if s.start = t then s.rate else 0) - if s.stop = t then s.rate else 0

def beyond (l : List Stretch) (t : ℚ) : ℚ := (l.map fun s => s.beyond t).sum

def edge (l : List Stretch) (t : ℚ) : ℚ := (l.map fun s => s.edge t).sum

def live (l : List Stretch) : Set ℝ := ⋃ s ∈ l, s.span

noncomputable def liveAfter (l : List Stretch) (t : ℚ) : ℝ :=
  volume.real (live l ∩ Set.Ioi (t : ℝ))

/-- No stretch starts or stops strictly between `lower` and `upper`. -/
def Clear (l : List Stretch) (lower upper : ℚ) : Prop :=
  ∀ s ∈ l, (s.start ≤ lower ∨ upper ≤ s.start) ∧ (s.stop ≤ lower ∨ upper ≤ s.stop)

variable {l : List Stretch} {s : Stretch} {lower upper t : ℚ}

/-! ## What is emitted -/

theorem Stretch.after_of_stop_le (h : s.stop ≤ t) : s.after t = 0 := by
  unfold after
  rw [max_eq_right (s.ordered.le.trans h)]
  exact max_eq_left (by linarith)

theorem Stretch.after_of_le_start (h : t ≤ s.start) : s.after t = s.stop - s.start := by
  unfold after
  rw [max_eq_left h]
  exact max_eq_right (by linarith [s.ordered])

theorem Stretch.after_of_covered (h : s.start ≤ t) (h' : t ≤ s.stop) :
    s.after t = s.stop - t := by
  unfold after
  rw [max_eq_right h]
  exact max_eq_right (by linarith)

theorem Stretch.after_lt (h : s.start < t) : s.after t < s.stop - s.start := by
  have hordered := s.ordered
  unfold after
  rw [max_eq_right h.le]
  exact max_lt (by linarith) (by linarith)

theorem Stretch.after_segment
    (hclear : (s.start ≤ lower ∨ upper ≤ s.start) ∧ (s.stop ≤ lower ∨ upper ≤ s.stop))
    (hlower : lower ≤ t) (hupper : t ≤ upper) (hlt : lower < upper) :
    s.after t = s.after upper + if s.Covers upper then upper - t else 0 := by
  obtain ⟨hstart | hstart, hstop⟩ := hclear
  · obtain hstop | hstop := hstop
    · rw [after_of_stop_le (hstop.trans hlower), after_of_stop_le (hstop.trans hlt.le),
        if_neg fun h => absurd h.2 (not_le.mpr (hstop.trans_lt hlt))]
      ring
    · rw [after_of_covered (hstart.trans hlower) (hupper.trans hstop),
        after_of_covered (hstart.trans hlt.le) hstop, if_pos ⟨hstart.trans_lt hlt, hstop⟩]
      ring
  · rw [after_of_le_start (hupper.trans hstart), after_of_le_start hstart,
      if_neg fun h => absurd h.1 (not_lt.mpr hstart)]
    ring

theorem emitted_segment (hclear : Clear l lower upper) (hlower : lower ≤ t) (hupper : t ≤ upper)
    (hlt : lower < upper) : emitted l t = emitted l upper + rateAt l upper * (upper - t) := by
  induction l with
  | nil => simp [emitted, rateAt]
  | cons s l ih =>
    have hs := s.after_segment (hclear s List.mem_cons_self) hlower hupper hlt
    have hrest := ih fun s' hs' => hclear s' (List.mem_cons_of_mem s hs')
    simp only [emitted, rateAt, List.map_cons, List.sum_cons] at hrest ⊢
    rw [hrest, hs]
    split <;> ring

theorem emitted_of_stop_le (h : ∀ s ∈ l, s.stop ≤ t) : emitted l t = 0 := by
  refine List.sum_eq_zero fun x hx => ?_
  obtain ⟨s, hs, rfl⟩ := List.mem_map.mp hx
  rw [s.after_of_stop_le (h s hs), mul_zero]

theorem emitted_of_le_start (h : ∀ s ∈ l, t ≤ s.start) : emitted l t = total l := by
  unfold emitted total
  congr 1
  refine List.map_congr_left fun s hs => ?_
  rw [s.after_of_le_start (h s hs)]

theorem emitted_le_total : emitted l t ≤ total l := by
  refine List.sum_le_sum fun s _ => mul_le_mul_of_nonneg_left ?_ s.positive.le
  obtain h | h := le_or_gt t s.start
  · exact (s.after_of_le_start h).le
  · exact (s.after_lt h).le

theorem le_start_of_emitted (h : emitted l t = total l) (hs : s ∈ l) : t ≤ s.start := by
  by_contra hstart
  refine (List.sum_lt_sum _ _ (fun s _ => ?_) ⟨s, hs, ?_⟩).ne h
  · refine mul_le_mul_of_nonneg_left ?_ s.positive.le
    obtain h | h := le_or_gt t s.start
    · exact (s.after_of_le_start h).le
    · exact (s.after_lt h).le
  · exact mul_lt_mul_of_pos_left (s.after_lt (not_le.mp hstart)) s.positive

theorem Stretch.rateAt_eq (s : Stretch) (t : ℚ) :
    (if s.Covers t then s.rate else 0) = s.beyond t - s.edge t := by
  have hordered := s.ordered
  unfold beyond edge
  obtain hstart | hstart | hstart := lt_trichotomy t s.start
  · have hcovers : ¬ s.Covers t := fun h => absurd h.1 hstart.not_gt
    rw [if_neg hcovers, if_pos (hstart.trans hordered), if_pos hstart, if_neg hstart.ne',
      if_neg (hstart.trans hordered).ne']
    ring
  · have hcovers : ¬ s.Covers t := fun h => absurd h.1 hstart.symm.not_lt
    rw [if_neg hcovers, if_pos (hstart.trans_lt hordered), if_neg hstart.not_lt, if_pos hstart.symm,
      if_neg (hstart.trans_lt hordered).ne']
    ring
  · rw [if_neg hstart.not_gt, if_neg hstart.ne]
    obtain hstop | hstop | hstop := lt_trichotomy t s.stop
    · have hcovers : s.Covers t := ⟨hstart, hstop.le⟩
      rw [if_pos hcovers, if_pos hstop, if_neg hstop.ne']
      ring
    · have hcovers : s.Covers t := ⟨hstart, hstop.le⟩
      rw [if_pos hcovers, if_neg hstop.not_lt, if_pos hstop.symm]
      ring
    · have hcovers : ¬ s.Covers t := fun h => absurd h.2 hstop.not_ge
      rw [if_neg hcovers, if_neg hstop.not_gt, if_neg hstop.ne]
      ring

theorem rateAt_eq (l : List Stretch) (t : ℚ) : rateAt l t = beyond l t - edge l t := by
  induction l with
  | nil => simp [rateAt, beyond, edge]
  | cons s l ih =>
    have hs := s.rateAt_eq t
    simp only [rateAt, beyond, edge, List.map_cons, List.sum_cons] at ih ⊢
    rw [ih, hs]
    ring

theorem Stretch.beyond_eq
    (hclear : (s.start ≤ lower ∨ upper ≤ s.start) ∧ (s.stop ≤ lower ∨ upper ≤ s.stop))
    (hlt : lower < upper) : s.beyond lower = if s.Covers upper then s.rate else 0 := by
  have hordered := s.ordered
  unfold beyond
  obtain ⟨hstart | hstart, hstop⟩ := hclear
  · rw [if_neg hstart.not_gt, sub_zero]
    obtain hstop | hstop := hstop
    · have hcovers : ¬ s.Covers upper := fun h => absurd h.2 (hstop.trans_lt hlt).not_ge
      rw [if_neg hcovers, if_neg hstop.not_gt]
    · have hcovers : s.Covers upper := ⟨hstart.trans_lt hlt, hstop⟩
      rw [if_pos hcovers, if_pos (hlt.trans_le hstop)]
  · have hcovers : ¬ s.Covers upper := fun h => absurd h.1 hstart.not_gt
    rw [if_neg hcovers, if_pos (hlt.trans_le (hstart.trans hordered.le)),
      if_pos (hlt.trans_le hstart), sub_self]

theorem beyond_eq_rateAt (hclear : Clear l lower upper) (hlt : lower < upper) :
    beyond l lower = rateAt l upper := by
  unfold beyond rateAt
  congr 1
  exact List.map_congr_left fun s hs => s.beyond_eq (hclear s hs) hlt

theorem beyond_of_stop_le (h : ∀ s ∈ l, s.stop ≤ t) : beyond l t = 0 := by
  refine List.sum_eq_zero fun x hx => ?_
  obtain ⟨s, hs, rfl⟩ := List.mem_map.mp hx
  unfold Stretch.beyond
  rw [if_neg (h s hs).not_gt, if_neg (s.ordered.le.trans (h s hs)).not_gt, sub_zero]

theorem rateAt_pos_iff : 0 < rateAt l t ↔ ∃ s ∈ l, s.Covers t := by
  constructor
  · intro h
    by_contra hno
    refine h.ne' (List.sum_eq_zero fun x hx => ?_)
    obtain ⟨s, hs, rfl⟩ := List.mem_map.mp hx
    exact if_neg fun hcovers => hno ⟨s, hs, hcovers⟩
  · rintro ⟨s, hs, hcovers⟩
    have hle := List.single_le_sum (l := l.map fun s => if s.Covers t then s.rate else 0)
      (fun x hx => by
        obtain ⟨s, -, rfl⟩ := List.mem_map.mp hx
        split
        · exact s.positive.le
        · exact le_rfl) _ (List.mem_map_of_mem hs)
    rw [if_pos hcovers] at hle
    exact s.positive.trans_le hle

/-! ## How long something runs -/

theorem mem_live {x : ℝ} : x ∈ live l ↔ ∃ s ∈ l, (s.start : ℝ) < x ∧ x ≤ s.stop := by
  simp only [live, Set.mem_iUnion, Stretch.span, Set.mem_Ioc, exists_prop]

theorem live_cons : live (s :: l) = s.span ∪ live l := by
  simp [live, Set.iUnion_iUnion_eq_or_left]

theorem measurableSet_live (l : List Stretch) : MeasurableSet (live l) := by
  induction l with
  | nil => simp [live]
  | cons s l ih => rw [live_cons]; exact measurableSet_Ioc.union ih

theorem volume_live_ne_top (l : List Stretch) : volume (live l) ≠ ⊤ := by
  induction l with
  | nil => simp [live]
  | cons s l ih =>
    rw [live_cons]
    exact ((measure_union_le _ _).trans_lt
      (ENNReal.add_lt_top.mpr ⟨measure_Ioc_lt_top, ih.lt_top⟩)).ne

theorem live_inter_segment (hclear : Clear l lower upper) (hlower : lower ≤ t) :
    live l ∩ Set.Ioc (t : ℝ) upper = if 0 < rateAt l upper then Set.Ioc (t : ℝ) upper else ∅ := by
  split
  case isTrue hrate =>
    obtain ⟨s, hs, hstart, hstop⟩ := rateAt_pos_iff.mp hrate
    refine Set.inter_eq_right.mpr fun x hx => mem_live.mpr ⟨s, hs, ?_, ?_⟩
    · have hle : s.start ≤ t := by
        obtain h | h := (hclear s hs).1
        · exact h.trans hlower
        · exact absurd hstart (not_lt.mpr h)
      exact (Rat.cast_le.mpr hle).trans_lt hx.1
    · exact hx.2.trans (Rat.cast_le.mpr hstop)
  case isFalse hrate =>
    refine Set.eq_empty_iff_forall_notMem.mpr fun x ⟨hlive, hx⟩ => ?_
    obtain ⟨s, hs, hstart, hstop⟩ := mem_live.mp hlive
    refine hrate (rateAt_pos_iff.mpr ⟨s, hs, ?_, ?_⟩)
    · exact Rat.cast_lt.mp (hstart.trans_le hx.2)
    · obtain h | h := (hclear s hs).2
      · exact absurd (hx.1.trans_le (hstop.trans (Rat.cast_le.mpr (h.trans hlower))))
          (lt_irrefl _)
      · exact h

theorem liveAfter_segment (hclear : Clear l lower upper) (hlower : lower ≤ t)
    (hupper : t ≤ upper) :
    liveAfter l t
      = liveAfter l upper + if 0 < rateAt l upper then ((upper - t : ℚ) : ℝ) else 0 := by
  have hcast : (t : ℝ) ≤ upper := Rat.cast_le.mpr hupper
  have hsplit : live l ∩ Set.Ioi (t : ℝ)
      = (live l ∩ Set.Ioi (upper : ℝ)) ∪ (live l ∩ Set.Ioc (t : ℝ) upper) := by
    rw [← Set.inter_union_distrib_left, Set.union_comm, Set.Ioc_union_Ioi_eq_Ioi hcast]
  have hdisjoint : Disjoint (live l ∩ Set.Ioi (upper : ℝ)) (live l ∩ Set.Ioc (t : ℝ) upper) :=
    Set.disjoint_left.mpr fun x hx hx' => absurd hx'.2.2 (not_le.mpr hx.2)
  have hmeasurable := (measurableSet_live l).inter (measurableSet_Ioc (a := (t : ℝ)) (b := upper))
  have hfinite (r : Set ℝ) : volume (live l ∩ r) ≠ ⊤ :=
    ((measure_mono Set.inter_subset_left).trans_lt (volume_live_ne_top l).lt_top).ne
  unfold liveAfter
  rw [hsplit, measureReal_union hdisjoint hmeasurable (hfinite _) (hfinite _),
    live_inter_segment hclear hlower]
  congr 1
  split
  · rw [Real.volume_real_Ioc_of_le hcast, Rat.cast_sub]
  · exact measureReal_empty

theorem liveAfter_of_stop_le (h : ∀ s ∈ l, s.stop ≤ t) : liveAfter l t = 0 := by
  have hempty : live l ∩ Set.Ioi (t : ℝ) = ∅ := by
    refine Set.eq_empty_iff_forall_notMem.mpr fun x ⟨hlive, hx⟩ => ?_
    obtain ⟨s, hs, -, hstop⟩ := mem_live.mp hlive
    exact absurd hx (not_lt.mpr (hstop.trans (Rat.cast_le.mpr (h s hs))))
  unfold liveAfter
  rw [hempty]
  exact measureReal_empty

theorem liveAfter_of_le_start (h : ∀ s ∈ l, t ≤ s.start) :
    liveAfter l t = volume.real (live l) := by
  unfold liveAfter
  congr 1
  refine Set.inter_eq_left.mpr fun x hx => ?_
  obtain ⟨s, hs, hstart, -⟩ := mem_live.mp hx
  exact (Rat.cast_le.mpr (h s hs)).trans_lt hstart

theorem liveAfter_pos (h : 0 < emitted l t) : 0 < liveAfter l t := by
  have hsome : ∃ s ∈ l, t < s.stop := by
    by_contra hno
    exact h.ne' (emitted_of_stop_le fun s hs => le_of_not_gt fun hlt => hno ⟨s, hs, hlt⟩)
  obtain ⟨s, hs, hstop⟩ := hsome
  have hlt : max s.start t < s.stop := max_lt s.ordered hstop
  have hsubset : Set.Ioc ((max s.start t : ℚ) : ℝ) (s.stop : ℝ) ⊆ live l ∩ Set.Ioi (t : ℝ) := by
    intro x hx
    refine ⟨mem_live.mpr ⟨s, hs, ?_, hx.2⟩, ?_⟩
    · exact (Rat.cast_le.mpr (le_max_left _ _)).trans_lt hx.1
    · exact (Rat.cast_le.mpr (le_max_right _ _)).trans_lt hx.1
  have hlength : 0 < volume.real (Set.Ioc ((max s.start t : ℚ) : ℝ) (s.stop : ℝ)) := by
    rw [Real.volume_real_Ioc_of_le (Rat.cast_le.mpr hlt.le)]
    exact sub_pos.mpr (Rat.cast_lt.mpr hlt)
  refine hlength.trans_le (measureReal_mono hsubset ?_)
  exact ((measure_mono Set.inter_subset_left).trans_lt (volume_live_ne_top l).lt_top).ne

end Sweep
