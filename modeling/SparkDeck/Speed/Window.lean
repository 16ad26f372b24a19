import SparkDeck.Speed.Rolling

/-!
# The sweep is the trailing window

The invariant of the loop (`Swept.At`): at a boundary `upper`, the tokens selected are those emitted
after it, the active time is that of the union after it, and the aggregate rate counts what stops
beyond it and starts no later. A pass of the loop carries it to the next boundary, unless the window
is full within the segment: then the cut `T` lies there.

* `sweep_spec`: where the loop ends, it has swept down to one instant.
* `window_swept`: what is returned, within the window and beyond it.
* `rollingGenerationSpeed_eq`: the origins that have a sample are the ones that are added up.
-/

namespace SparkDeck.Speed

open MeasureTheory Sweep

def Sample.stretch (s : Sample) : Stretch where
  start := s.startedAt
  stop := s.endedAt
  rate := s.rate
  ordered := s.ordered
  positive := div_pos s.positive (sub_pos.mpr s.ordered)

/-! ## The deltas -/

theorem getD_shift (deltas : Dict ℚ ℚ) (key rate u : ℚ) :
    ((shift deltas key rate).get u).getD 0
      = (deltas.get u).getD 0 + if key = u then rate else 0 := by
  unfold shift
  rw [Dict.get_insert]
  by_cases h : u = key
  · rw [if_pos h, if_pos h.symm, h, Option.getD_some]
  · rw [if_neg h, if_neg (Ne.symm h), add_zero]

theorem mem_keys_shift {deltas : Dict ℚ ℚ} {key rate u : ℚ} :
    u ∈ (shift deltas key rate).keys ↔ u = key ∨ u ∈ deltas.keys := by
  rw [shift, Dict.keys_insert, Finset.mem_insert]

theorem foldl_shift (samples : List Sample) (deltas : Dict ℚ ℚ) (u : ℚ) :
    ((samples.foldl (fun deltas s =>
      shift (shift deltas s.startedAt s.rate) s.endedAt (-s.rate)) deltas).get u).getD 0
      = (deltas.get u).getD 0 + edge (samples.map Sample.stretch) u := by
  induction samples generalizing deltas with
  | nil => simp [edge]
  | cons s samples ih =>
    simp only [List.foldl_cons, ih, getD_shift, List.map_cons, edge, List.sum_cons, Stretch.edge,
      Sample.stretch]
    split <;> split <;> ring

theorem mem_keys_foldl_shift (samples : List Sample) (deltas : Dict ℚ ℚ) (u : ℚ) :
    u ∈ (samples.foldl (fun deltas s =>
      shift (shift deltas s.startedAt s.rate) s.endedAt (-s.rate)) deltas).keys
      ↔ u ∈ deltas.keys ∨ ∃ s ∈ samples, u = s.startedAt ∨ u = s.endedAt := by
  induction samples generalizing deltas with
  | nil => simp
  | cons s samples ih =>
    rw [List.foldl_cons, ih, mem_keys_shift, mem_keys_shift, List.exists_mem_cons_iff]
    constructor
    · rintro ((h | h | h) | h)
      · exact Or.inr (Or.inl (Or.inr h))
      · exact Or.inr (Or.inl (Or.inl h))
      · exact Or.inl h
      · exact Or.inr (Or.inr h)
    · rintro (h | (h | h) | h)
      · exact Or.inl (Or.inr (Or.inr h))
      · exact Or.inl (Or.inr (Or.inl h))
      · exact Or.inl (Or.inl h)
      · exact Or.inr h

theorem getD_deltasOf (samples : List Sample) (u : ℚ) :
    ((deltasOf samples).get u).getD 0 = edge (samples.map Sample.stretch) u := by
  unfold deltasOf
  rw [foldl_shift, Dict.get_empty, Option.getD_none, zero_add]

variable {samples : List Sample}

theorem mem_keys_deltasOf {u : ℚ} :
    u ∈ (deltasOf samples).keys ↔ ∃ s ∈ samples, u = s.startedAt ∨ u = s.endedAt := by
  unfold deltasOf
  rw [mem_keys_foldl_shift, Dict.keys_empty]
  exact or_iff_right (Finset.notMem_empty u)

theorem mem_boundaries {u : ℚ} :
    u ∈ boundaries (deltasOf samples) ↔ ∃ s ∈ samples, u = s.startedAt ∨ u = s.endedAt := by
  unfold boundaries
  rw [Finset.mem_sort, mem_keys_deltasOf]

theorem pairwise_boundaries (deltas : Dict ℚ ℚ) : (boundaries deltas).Pairwise (· > ·) :=
  (Finset.sortedGT_sort deltas.keys).pairwise

theorem edge_perm {l l' : List Stretch} (h : l.Perm l') (u : ℚ) : edge l u = edge l' u :=
  (h.map _).sum_eq

theorem deltasOf_perm {samples samples' : List Sample} (h : samples'.Perm samples) :
    deltasOf samples' = deltasOf samples := by
  have hkeys (u : ℚ) : u ∈ (deltasOf samples').keys ↔ u ∈ (deltasOf samples).keys := by
    simp only [mem_keys_deltasOf, h.mem_iff]
  have hgetD (u : ℚ) :
      ((deltasOf samples').get u).getD 0 = ((deltasOf samples).get u).getD 0 := by
    rw [getD_deltasOf, getD_deltasOf, edge_perm (h.map _)]
  refine Dict.ext fun u => ?_
  specialize hkeys u
  specialize hgetD u
  rw [Dict.mem_keys_iff, Dict.mem_keys_iff] at hkeys
  cases h₁ : (deltasOf samples').get u with
  | none =>
    cases h₂ : (deltasOf samples).get u with
    | none => rfl
    | some b =>
      obtain ⟨a, ha⟩ := hkeys.mpr ⟨b, h₂⟩
      rw [h₁] at ha
      cases ha
  | some a =>
    obtain ⟨b, h₂⟩ := hkeys.mp ⟨a, h₁⟩
    rw [h₁, h₂, Option.getD_some, Option.getD_some] at hgetD
    rw [h₂, hgetD]

/-! ## The loop -/

/-- The state of the loop before the pass whose upper boundary is `upper`. -/
structure Swept.At (l : List Stretch) (upper : ℚ) (st : Swept) : Prop where
  selected : st.selectedTokens = emitted l upper
  active : (st.activeTime : ℝ) = liveAfter l upper
  rate : st.aggregateRate = beyond l upper
  room : st.selectedTokens < usageSpeedWindowTokens

/-- The boundaries are every start and stop up to the first of them. -/
def Boundaries (l : List Stretch) (bounds : List ℚ) (upper : ℚ) : Prop :=
  ∀ s ∈ l, (s.start ∈ bounds ∨ upper ≤ s.start) ∧ (s.stop ∈ bounds ∨ upper ≤ s.stop)

/-- The loop stopped at `T`: at the last boundary or with the window full. -/
def Swept.Ends (l : List Stretch) (st : Swept) : Prop :=
  ∃ T, st.selectedTokens = emitted l T ∧ (st.activeTime : ℝ) = liveAfter l T ∧
    ((∀ s ∈ l, T ≤ s.start) ∧ st.selectedTokens < usageSpeedWindowTokens ∨
      st.selectedTokens = usageSpeedWindowTokens)

variable {l : List Stretch} {deltas : Dict ℚ ℚ} {upper lower : ℚ} {rest : List ℚ} {st : Swept}

theorem Boundaries.clear (h : Boundaries l (lower :: rest) upper)
    (hsorted : (lower :: rest).Pairwise (· > ·)) : Clear l lower upper := by
  have hle {u : ℚ} (hu : u ∈ lower :: rest) : u ≤ lower := by
    obtain rfl | hu := List.mem_cons.mp hu
    · exact le_rfl
    · exact (List.rel_of_pairwise_cons hsorted hu).le
  exact fun s hs => ⟨(h s hs).1.imp_left hle, (h s hs).2.imp_left hle⟩

theorem Boundaries.next (h : Boundaries l (lower :: rest) upper) (hlt : lower < upper) :
    Boundaries l rest lower := by
  have hnext {u : ℚ} (hu : u ∈ lower :: rest ∨ upper ≤ u) : u ∈ rest ∨ lower ≤ u := by
    obtain hu | hu := hu
    · obtain rfl | hu := List.mem_cons.mp hu
      · exact Or.inr le_rfl
      · exact Or.inl hu
    · exact Or.inr (hlt.le.trans hu)
  exact fun s hs => ⟨hnext (h s hs).1, hnext (h s hs).2⟩

/-- A segment nobody covers: the loop passes on with the aggregate rate alone. -/
theorem Swept.At.skip (h : st.At l upper) (hclear : Clear l lower upper) (hlt : lower < upper)
    (hrate : rateAt l upper ≤ 0) :
    Swept.At l lower { st with aggregateRate := rateAt l upper } := by
  have hnone : ¬ 0 < rateAt l upper := not_lt.mpr hrate
  have hzero : rateAt l upper = 0 := by
    refine le_antisymm hrate (List.sum_nonneg fun x hx => ?_)
    obtain ⟨s, -, rfl⟩ := List.mem_map.mp hx
    split
    · exact s.positive.le
    · exact le_rfl
  constructor
  · rw [h.selected, emitted_segment hclear le_rfl hlt.le hlt, hzero, zero_mul, add_zero]
  · rw [h.active, liveAfter_segment hclear le_rfl hlt.le, if_neg hnone, add_zero]
  · exact (beyond_eq_rateAt hclear hlt).symm
  · exact h.room

/-- A segment the window has room for. -/
theorem Swept.At.pass (h : st.At l upper) (hclear : Clear l lower upper) (hlt : lower < upper)
    (hrate : 0 < rateAt l upper)
    (hroom : st.selectedTokens + rateAt l upper * (upper - lower) < usageSpeedWindowTokens) :
    Swept.At l lower ⟨st.selectedTokens + rateAt l upper * (upper - lower),
      st.activeTime + rateAt l upper * (upper - lower) / rateAt l upper, rateAt l upper⟩ := by
  constructor
  · rw [h.selected, emitted_segment hclear le_rfl hlt.le hlt]
  · rw [liveAfter_segment hclear le_rfl hlt.le, if_pos hrate, mul_div_cancel_left₀ _ hrate.ne',
      Rat.cast_add, h.active]
  · exact (beyond_eq_rateAt hclear hlt).symm
  · exact hroom

/-- The window is full within a segment: the cut lies as far below `upper` as it takes at that rate
to emit what was missing. -/
theorem Swept.At.cut (h : st.At l upper) (hclear : Clear l lower upper) (hlt : lower < upper)
    (hrate : 0 < rateAt l upper)
    (hfull : usageSpeedWindowTokens - st.selectedTokens ≤ rateAt l upper * (upper - lower)) :
    Swept.Ends l ⟨st.selectedTokens + (usageSpeedWindowTokens - st.selectedTokens),
      st.activeTime + (usageSpeedWindowTokens - st.selectedTokens) / rateAt l upper,
      rateAt l upper⟩ := by
  let missing := usageSpeedWindowTokens - st.selectedTokens
  have hmissing : 0 ≤ missing / rateAt l upper := div_nonneg (sub_pos.mpr h.room).le hrate.le
  have hlength : missing / rateAt l upper ≤ upper - lower := by
    rw [div_le_iff₀ hrate, mul_comm]
    exact hfull
  have hlower : lower ≤ upper - missing / rateAt l upper := by linarith
  have hupper : upper - missing / rateAt l upper ≤ upper := by linarith
  refine ⟨upper - missing / rateAt l upper, ?_, ?_, Or.inr (add_sub_cancel _ _)⟩
  · rw [emitted_segment hclear hlower hupper hlt, sub_sub_cancel, mul_div_cancel₀ _ hrate.ne',
      ← h.selected]
  · rw [liveAfter_segment hclear hlower hupper, if_pos hrate, sub_sub_cancel, Rat.cast_add,
      h.active]

theorem sweep_spec (hdeltas : ∀ u, (deltas.get u).getD 0 = edge l u)
    (hsorted : (upper :: rest).Pairwise (· > ·)) (hbounds : Boundaries l rest upper)
    (h : st.At l upper) : (sweep deltas (upper :: rest) st).Ends l := by
  induction rest generalizing upper st with
  | nil =>
    refine ⟨upper, h.selected, h.active, Or.inl ⟨fun s hs => ?_, h.room⟩⟩
    exact (hbounds s hs).1.resolve_left List.not_mem_nil
  | cons lower rest ih =>
    have hlt : lower < upper := List.rel_of_pairwise_cons hsorted List.mem_cons_self
    have hsorted' := hsorted.of_cons
    have hclear := hbounds.clear hsorted'
    have hnext := hbounds.next hlt
    have hrate : st.aggregateRate - (deltas.get upper).getD 0 = rateAt l upper := by
      rw [h.rate, hdeltas, rateAt_eq]
    unfold sweep
    dsimp only
    rw [hrate]
    split
    case isTrue hskip =>
      exact ih hsorted' hnext (h.skip hclear hlt (hskip.resolve_right (not_le.mpr hlt)))
    case isFalse hpass =>
      obtain ⟨hpos, -⟩ := not_or.mp hpass
      have hpos := not_le.mp hpos
      obtain hroom | hroom := le_or_gt (usageSpeedWindowTokens - st.selectedTokens)
        (rateAt l upper * (upper - lower))
      · rw [min_eq_right hroom, if_pos (add_sub_cancel _ _).ge]
        exact h.cut hclear hlt hpos hroom
      · have hroom' := lt_sub_iff_add_lt'.mp hroom
        rw [min_eq_left hroom.le, if_neg (not_le.mpr hroom')]
        exact ih hsorted' hnext (h.pass hclear hlt hpos hroom')

/-! ## What is returned -/

theorem total_stretches (samples : List Sample) :
    total (samples.map Sample.stretch) = (samples.map Sample.tokens).sum := by
  unfold total
  rw [List.map_map]
  congr 1
  refine List.map_congr_left fun s _ => ?_
  exact div_mul_cancel₀ _ (sub_pos.mpr s.ordered).ne'

theorem ends_swept (h : samples ≠ []) : (swept samples).Ends (samples.map Sample.stretch) := by
  have hmem (s : Stretch) (hs : s ∈ samples.map Sample.stretch) :
      s.start ∈ boundaries (deltasOf samples) ∧ s.stop ∈ boundaries (deltasOf samples) := by
    obtain ⟨s, hin, rfl⟩ := List.mem_map.mp hs
    exact ⟨mem_boundaries.mpr ⟨s, hin, Or.inl rfl⟩, mem_boundaries.mpr ⟨s, hin, Or.inr rfl⟩⟩
  have hsorted := pairwise_boundaries (deltasOf samples)
  unfold swept
  dsimp only
  cases hbounds : boundaries (deltasOf samples) with
  | nil =>
    obtain ⟨s, hs⟩ := List.exists_mem_of_ne_nil samples h
    have hstart := (hmem s.stretch (List.mem_map_of_mem hs)).1
    rw [hbounds] at hstart
    cases hstart
  | cons upper rest =>
    rw [hbounds] at hmem hsorted
    have hle {u : ℚ} (hu : u ∈ upper :: rest) : u ≤ upper := by
      obtain rfl | hu := List.mem_cons.mp hu
      · exact le_rfl
      · exact (List.rel_of_pairwise_cons hsorted hu).le
    have hrest {u : ℚ} (hu : u ∈ upper :: rest) : u ∈ rest ∨ upper ≤ u :=
      (List.mem_cons.mp hu).symm.imp_right fun h => h.ge
    refine sweep_spec (getD_deltasOf samples) hsorted
      (fun s hs => ⟨hrest (hmem s hs).1, hrest (hmem s hs).2⟩) ⟨?_, ?_, ?_, ?_⟩
    · exact (emitted_of_stop_le fun s hs => hle (hmem s hs).2).symm
    · rw [Rat.cast_zero, liveAfter_of_stop_le fun s hs => hle (hmem s hs).2]
    · exact (beyond_of_stop_le fun s hs => hle (hmem s hs).2).symm
    · unfold usageSpeedWindowTokens
      norm_num

theorem Swept.Ends.within (h : st.Ends l) (htotal : total l ≤ usageSpeedWindowTokens) :
    st.selectedTokens = total l ∧ (st.activeTime : ℝ) = volume.real (live l) := by
  obtain ⟨T, hselected, hactive, hall⟩ := h
  have hstart : ∀ s ∈ l, T ≤ s.start := by
    obtain ⟨hstart, -⟩ | hfull := hall
    · exact hstart
    · refine fun s hs => le_start_of_emitted ?_ hs
      exact le_antisymm emitted_le_total (by linarith)
  rw [hselected, hactive, emitted_of_le_start hstart, liveAfter_of_le_start hstart]
  exact ⟨rfl, rfl⟩

theorem Swept.Ends.beyond (h : st.Ends l) (htotal : usageSpeedWindowTokens < total l) :
    ∃ T, emitted l T = usageSpeedWindowTokens ∧ st.selectedTokens = usageSpeedWindowTokens ∧
      (st.activeTime : ℝ) = volume.real (live l ∩ Set.Ioi (T : ℝ)) := by
  obtain ⟨T, hselected, hactive, hall⟩ := h
  obtain ⟨hstart, hroom⟩ | hfull := hall
  · rw [hselected, emitted_of_le_start hstart] at hroom
    exact absurd hroom htotal.not_gt
  · exact ⟨T, hselected.symm.trans hfull, hfull, hactive⟩

theorem total_pos (h : samples ≠ []) : 0 < (samples.map Sample.tokens).sum := by
  refine List.sum_pos _ (fun x hx => ?_) (mt List.map_eq_nil_iff.mp h)
  obtain ⟨s, -, rfl⟩ := List.mem_map.mp hx
  exact s.positive

theorem Swept.Ends.selected_pos (h : st.Ends l) (htotal : 0 < total l) :
    0 < st.selectedTokens := by
  obtain ⟨T, hselected, -, ⟨hstart, -⟩ | hfull⟩ := h
  · rw [hselected, emitted_of_le_start hstart]
    exact htotal
  · rw [hfull]
    unfold usageSpeedWindowTokens
    norm_num

theorem Swept.Ends.active_pos (h : st.Ends l) (htotal : 0 < total l) : 0 < st.activeTime := by
  have hpos := h.selected_pos htotal
  obtain ⟨T, hselected, hactive, -⟩ := h
  rw [hselected] at hpos
  have hlive := liveAfter_pos hpos
  rw [← hactive] at hlive
  exact Rat.cast_pos.mp hlive

theorem rollingSpeed_of_ne_nil (h : samples ≠ []) (hactive : 0 < (swept samples).activeTime) :
    rollingSpeedForSamples samples = ⟨int (swept samples).selectedTokens,
      (swept samples).activeTime,
      some ((swept samples).selectedTokens / (swept samples).activeTime)⟩ := by
  unfold rollingSpeedForSamples
  rw [if_neg h]
  dsimp only
  rw [if_pos hactive]

theorem swept_nil : swept [] = ⟨0, 0, 0⟩ := by
  simp [swept, deltasOf, boundaries, Finset.sort_empty, sweep]

theorem int_eq_floor {x : ℚ} (h : 0 ≤ x) : int x = ⌊x⌋ := by
  unfold int
  rw [Rat.floor_def', Int.tdiv_eq_ediv_of_nonneg (Rat.num_nonneg.mpr h)]

/-- Up to a window's worth of tokens, the sweep selects them all and its active time is the length
of the union of the intervals. Beyond, it is as if everything up to some instant `T` had been cut
off, where exactly a window's worth is emitted after `T`. The speed is the quotient of the two, and
no order of the samples gives another. -/
theorem window_swept (samples : List Sample) :
    let st := swept samples
    let speed := rollingSpeedForSamples samples
    let running := samples.map Sample.stretch
    let total := (samples.map Sample.tokens).sum
    (total ≤ usageSpeedWindowTokens →
      st.selectedTokens = total ∧ (st.activeTime : ℝ) = volume.real (live running)) ∧
    (usageSpeedWindowTokens < total →
      ∃ T, emitted running T = usageSpeedWindowTokens ∧
        st.selectedTokens = usageSpeedWindowTokens ∧
        (st.activeTime : ℝ) = volume.real (live running ∩ Set.Ioi (T : ℝ))) ∧
    speed.tokens = ⌊st.selectedTokens⌋ ∧ speed.activeTimeS = st.activeTime ∧
    (samples = [] ∧ speed.tokS = none ∨
      0 < st.activeTime ∧ speed.tokS = some (st.selectedTokens / st.activeTime)) ∧
    ∀ samples', samples'.Perm samples →
      swept samples' = st ∧ rollingSpeedForSamples samples' = speed := by
  have hperm (samples' : List Sample) (h : samples'.Perm samples) :
      swept samples' = swept samples ∧
        rollingSpeedForSamples samples' = rollingSpeedForSamples samples := by
    have hswept : swept samples' = swept samples := by
      unfold swept
      rw [deltasOf_perm h]
    refine ⟨hswept, ?_⟩
    unfold rollingSpeedForSamples
    rw [hswept]
    simp only [← List.length_eq_zero_iff, h.length_eq]
  by_cases hempty : samples = []
  · subst hempty
    rw [swept_nil] at hperm ⊢
    refine ⟨fun _ => ⟨rfl, ?_⟩, fun h => ?_, Int.floor_zero.symm, rfl, Or.inl ⟨rfl, rfl⟩, hperm⟩
    · have hnone : live ([].map Sample.stretch) = ∅ := by simp [live]
      rw [hnone, measureReal_empty]
      exact Rat.cast_zero
    · exact absurd h (by unfold usageSpeedWindowTokens; norm_num)
  · have hends := ends_swept hempty
    have htotal := total_pos hempty
    rw [← total_stretches] at htotal ⊢
    have hactive := hends.active_pos htotal
    have hselected := (hends.selected_pos htotal).le
    rw [rollingSpeed_of_ne_nil hempty hactive] at hperm ⊢
    exact ⟨hends.within, hends.beyond, int_eq_floor hselected, rfl, Or.inr ⟨hactive, rfl⟩, hperm⟩

/-! ## The origins together -/

theorem tokS_pos {r : ℚ} (h : (rollingSpeedForSamples samples).tokS = some r) : 0 < r := by
  obtain rfl | hempty := eq_or_ne samples []
  · cases h
  · have hends := ends_swept hempty
    have htotal := total_pos hempty
    rw [← total_stretches] at htotal
    have hactive := hends.active_pos htotal
    rw [rollingSpeed_of_ne_nil hempty hactive] at h
    cases h
    exact div_pos (hends.selected_pos htotal) hactive

end SparkDeck.Speed
