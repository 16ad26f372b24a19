import Mathlib.Data.List.Induction
import SparkDeck.Consent.Averages

/-!
# The averages of all cohorts

Model of `_community_contribution_averages()` without keys (`sparkdeck/storage.py:1229-1251`): one
query over the rows of the current consent, which is ordered by their creation times alone, so that
rows of one time come in any order (`Fetched`).

* `averages_agree`: of at most `rowLimit` rows it finds the cohorts that have a row, and averages what
  the query for one cohort does, unless rows of one time are on both sides of the limit (`Clear`).
-/

namespace SparkDeck.Consent

open Community Transition

/-- `_COMMUNITY_AGGREGATE_ROW_LIMIT` -/
def rowLimit : ℕ := 100000

/-- `if len(values) < _COMMUNITY_CONTRIBUTOR_SAMPLE_LIMIT: values.append(speed)` -/
def push (values : List ℚ) (speed : ℚ) : List ℚ :=
  if values.length < sampleLimit then values ++ [speed] else values

/-- `_outlier_filtered_mean(values) ... if values` -/
def average (values : List ℚ) : Option ℚ :=
  if values = [] then none else some (outlierFilteredMean values)

theorem average_perm {l m : List ℚ} (h : l.Perm m) : average l = average m := by
  have hr := retained_perm h
  simp only [average, outlierFilteredMean, ← List.length_eq_zero_iff, h.length_eq, hr.length_eq,
    Mean.mean_perm h, Mean.mean_perm hr]

namespace Desk

section

variable (py : Python) (d : Desk)

/-- The rows of the current consent. -/
def current : List Row :=
  d.store.samples.filter fun r => r.eligible && r.generation = some d.store.generation

/-- `ORDER BY created_at DESC` -/
def Fetched (rows : List Row) : Prop :=
  rows.Perm d.current ∧ rows.Pairwise fun a b => b.sample.createdAt ≤ a.sample.createdAt

/-- One row; `none` is an exception. -/
def group (groups : List (Cohort × List ℚ)) (r : Row) : Option (List (Cohort × List ℚ)) :=
  (d.uploadRow py r).map fun
    | none => groups
    | some c => Assoc.set groups c
        (push ((Assoc.get groups c).getD []) ((positiveSpeed r.sample.generationTps).getD 0))

/-- `_community_contribution_averages().get(c)`, of the rows as they come. -/
def averageOf (rows : List Row) (c : Cohort) : Option (Option ℚ) :=
  ((rows.take rowLimit).foldlM (d.group py) []).map fun groups =>
    (Assoc.get groups c).bind average

/-- `_community_contribution_averages({c}).get(c)` -/
def keyedAverage (c : Cohort) : Option (Option ℚ) := (d.speeds py c).map average

/-- The row is looked up with the cohort. -/
def within (c : Cohort) (r : Row) : Bool :=
  d.columns r.sample.id = some c.columns && (d.labels r.sample.id).hardwareKey = c.hardwareKey

/-- A row that the limit leaves out is older than those that it does not. -/
def Clear (c : Cohort) : Prop :=
  ∀ a ∈ newest d c, ∀ b ∈ ((d.cohortRows c).insertionSort newer).drop sampleLimit,
    b.sample.createdAt < a.sample.createdAt

/-- The first values of a cohort. -/
def valuesOf (rows : List Row) (c : Cohort) : List ℚ :=
  ((rows.filter (d.within c)).take sampleLimit).map speedOf

end

variable {py : Python} {refill : Sample → Label → Option Columns} {d : Desk} {c : Cohort}
  {rows : List Row} {r : Row}

theorem cohortRows_eq : d.cohortRows c = d.current.filter (d.within c) := by
  rw [current, List.filter_filter]
  refine List.filter_congr fun r _ => ?_
  simp only [within, Bool.and_assoc, Bool.and_comm, Bool.and_left_comm]

/-- The cohort that a row of the current consent is added to. -/
theorem group_eq (hd : Sound py d) (hr : r ∈ d.current) : ∃ c, (∀ c', d.within c' r ↔ c' = c) ∧
    ∀ groups, d.group py groups r =
      some (Assoc.set groups c (push ((Assoc.get groups c).getD []) (speedOf r))) := by
  obtain ⟨hmem, heligible⟩ := List.mem_filter.mp hr
  have hrow := hd.rows r hmem (Bool.and_eq_true_iff.mp heligible).1
  obtain ⟨columns, hc, hpayload⟩ := @uploadRow_eq py d r hrow.uploadable
  obtain ⟨-, hspeed, -⟩ := comparable_true (comparable_of_uploadable hrow.uploadable)
  obtain ⟨speed, hspeed⟩ := Option.isSome_iff_exists.mp hspeed
  have htps : r.sample.generationTps = some speed := (Option.filter_eq_some_iff.mp hspeed).1
  refine ⟨⟨columns, (d.labels r.sample.id).hardwareKey⟩, fun c' => ?_, fun groups => ?_⟩
  · cases c'
    simp only [within, hrow.columns, hc, Bool.and_eq_true, decide_eq_true_iff, Option.some.injEq,
      Cohort.mk.injEq]
    exact and_congr eq_comm eq_comm
  · unfold group speedOf
    rw [hpayload, hspeed, htps]
    rfl

theorem valuesOf_concat : d.valuesOf (rows ++ [r]) c =
    if d.within c r then push (d.valuesOf rows c) (speedOf r) else d.valuesOf rows c := by
  unfold valuesOf push
  rw [List.filter_append]
  split
  case isTrue h =>
    rw [List.filter_singleton, h, List.length_map, List.length_take]
    split
    · rw [List.take_of_length_le (by simp; omega), List.take_of_length_le (by omega)]
      simp
    · rw [List.take_append_of_le_length (by omega)]
  case isFalse h => simp [h]

/-- The groups after some rows. -/
theorem foldlM_group (hd : Sound py d) (hrows : ∀ r ∈ rows, r ∈ d.current) :
    ∃ groups, rows.foldlM (d.group py) [] = some groups ∧ ∀ c,
      (Assoc.get groups c).getD [] = d.valuesOf rows c := by
  induction rows using List.reverseRecOn with
  | nil => exact ⟨[], rfl, fun c => rfl⟩
  | append_singleton rows r ih =>
    obtain ⟨groups, hfold, hget⟩ := ih fun r' hr' => hrows r' (List.mem_append_left _ hr')
    obtain ⟨c₀, hc₀, hgroup⟩ := group_eq hd (hrows r (List.mem_append_right _ (by simp)))
    refine ⟨_, by rw [List.foldlM_append, hfold]; exact (bind_pure _).trans (hgroup groups), ?_⟩
    intro c
    rw [valuesOf_concat, hget]
    by_cases hcc : c = c₀
    · rw [hcc, Assoc.get_set_self, if_pos ((hc₀ _).mpr rfl)]
      rfl
    · rw [Assoc.get_set_ne hcc, hget, if_neg (mt (hc₀ c).mp hcc)]

theorem averageOf_eq (hd : Sound py d) (hrows : d.Fetched rows) (hlimit : rows.length ≤ rowLimit) :
    d.averageOf py rows c = some (average (d.valuesOf rows c)) := by
  obtain ⟨groups, hfold, hget⟩ := foldlM_group hd fun r hr => hrows.1.subset hr
  rw [averageOf, List.take_of_length_le hlimit, hfold, ← hget, Option.map_some]
  cases Assoc.get groups c with
  | none => rfl
  | some values => rfl

/-- **The two queries agree**, in every run. -/
theorem averages_agree (huuid : ∀ x y, py.uuid x = some y → (py.uuid y).isSome = true)
    (labels : String → Label) (hrun : Reach (act py refill) (genuine py) (Desk.opened labels) d)
    (hrows : d.Fetched rows) (hlimit : rows.length ≤ rowLimit) (c : Cohort) :
    d.keyedAverage py c = some (average ((newest d c).map speedOf)) ∧
      (d.averageOf py rows c = some none ↔ d.cohortRows c = []) ∧
      (d.Clear c → d.averageOf py rows c = d.keyedAverage py c) := by
  have hd : Sound py d := hrun.invariant (sound_opened labels)
    fun _ _ _ ha hgenuine hstep => sound_act huuid ha hgenuine hstep
  have hkeyed : d.keyedAverage py c = some (average ((newest d c).map speedOf)) := by
    rw [keyedAverage, speeds_eq hd]
    rfl
  have hperm : (rows.filter (d.within c)).Perm (d.cohortRows c) :=
    cohortRows_eq ▸ hrows.1.filter _
  rw [averageOf_eq hd hrows hlimit, hkeyed]
  refine ⟨rfl, ?_, fun hclear => congrArg some (average_perm (List.Perm.map speedOf ?_))⟩
  · simp [average, valuesOf, sampleLimit, ← List.length_eq_zero_iff, hperm.length_eq]
  · exact Sorted.take_perm (hperm.trans (List.perm_insertionSort newer _).symm)
      (hrows.2.sublist List.filter_sublist) hclear

theorem averages_agree_share : ∃ (d : Desk) (c : Cohort), d.cohortRows c ≠ [] ∧
    d.averageOf plain d.current c = d.keyedAverage plain c := by
  let c : Cohort := ⟨⟨"org/model", "UNKNOWN", 400, 1⟩, "unknown"⟩
  have hrun : (replay (act plain noRefill) (quiet plain) (Desk.opened fun _ => unlabelled)
      (asActs share)).any (fun d => d.current.length = 1 ∧ d.cohortRows c ≠ []) = true := by
    decide +kernel
  obtain ⟨d, hreach, hd⟩ := reach_any hrun
  obtain ⟨hone, hne⟩ := of_decide_eq_true hd
  obtain ⟨r, hr⟩ := List.length_eq_one_iff.mp hone
  have hclear : d.Clear c := by
    rw [Clear, cohortRows_eq, hr, List.drop_eq_nil_of_le]
    · exact fun _ _ _ hb => absurd hb List.not_mem_nil
    · rw [List.length_insertionSort]
      exact (List.length_filter_le _ _).trans (Nat.le_of_ble_eq_true rfl)
  have hgenuine : Reach (act plain noRefill) (genuine plain) _ d :=
    hreach.mono fun d a hq o l ha => by
      subst ha
      exact hq.1
  exact ⟨d, c, hne, (averages_agree plain_uuid _ hgenuine
    ⟨.refl _, hr ▸ List.pairwise_singleton _ _⟩ (hone ▸ by decide) c).2.2 hclear⟩

end Desk

end SparkDeck.Consent
