import SparkDeck.Consent.Airtight
import SparkDeck.Consent.Outbox

/-!
# Every payload finds its average

`outbox_entries` looks a cohort up that it has recomputed from one view of the rows in a map that is
built from a later one. `Sound` is what every operation keeps: the columns of an eligible row are
those that its cohort is recomputed from.

* `finish_failed_iff`: so the lookup fails exactly if a cohort that was read has no row of the
  current consent any more.
* `quiet` is the condition on a step: the outbox stays airtight, and an operation that comes between
  the queries of a call leaves the consent, the ids that it has listed, and a row of each cohort
  that it has read.
* `outboxEntries_quiet`: in a run of quiet steps no call fails, and what it returns are means over
  rows of the current consent.
* `consent_between`: a consent that is withdrawn between the queries makes the call fail.
-/

namespace SparkDeck.Consent

open Community Transition Function

variable {py : Python} {refill : Sample → Label → Option Columns}

/-! ## Rows -/

/-- An eligible row has a payload, and the columns of it. -/
structure RowSound (py : Python) (d : Desk) (r : Row) : Prop where
  uploadable : Store.uploadable py r = some true
  columns : d.columns r.sample.id = columnsOf py r.sample (d.labels r.sample.id)

structure Sound (py : Python) (d : Desk) : Prop where
  ids : (d.store.samples.map fun r => r.sample.id).Nodup
  cluster : ∀ id, d.store.clusterId = some id → (py.uuid id).isSome
  rows : ∀ r ∈ d.store.samples, r.eligible → RowSound py d r

theorem comparable_true {x : Sample} (h : comparable py x = some true) :
    (promptTokens py x.inputTokens).isSome ∧ (positiveSpeed x.generationTps).isSome ∧
      ∃ size, tensorParallelSize py x.tensorParallelSize = some (some size) := by
  unfold comparable at h
  split at h
  case isFalse => cases h
  case isTrue hfields =>
    obtain ⟨size, hsize, h⟩ := Option.map_eq_some_iff.mp h
    rw [Bool.and_eq_true] at h
    obtain ⟨n, rfl⟩ := Option.isSome_iff_exists.mp h.1
    exact ⟨hfields.2.1, hfields.2.2, n, hsize⟩

theorem columnsOf_isSome {x : Sample} (h : comparable py x = some true) (l : Label) :
    ∃ c, columnsOf py x l = some c := by
  obtain ⟨hprompt, -, size, hsize⟩ := comparable_true h
  obtain ⟨tokens, htokens⟩ := Option.isSome_iff_exists.mp hprompt
  unfold columnsOf promptBucket
  rw [htokens, hsize]
  exact ⟨_, rfl⟩

theorem comparable_of_uploadable {r : Row} (h : Store.uploadable py r = some true) :
    comparable py r.sample = some true := by
  unfold Store.uploadable at h
  split at h
  · exact h
  · cases h

/-- The payload of a row that has one, with the cohort that is recomputed for it. -/
theorem uploadRow_eq {d : Desk} {r : Row} (h : Store.uploadable py r = some true) :
    ∃ c, columnsOf py r.sample (d.labels r.sample.id) = some c ∧
      d.uploadRow py r = some (some ⟨c, (d.labels r.sample.id).hardwareKey⟩) := by
  obtain ⟨c, hc⟩ := columnsOf_isSome (comparable_of_uploadable h) (d.labels r.sample.id)
  refine ⟨c, hc, ?_⟩
  unfold Desk.uploadRow
  rw [h, hc]
  rfl

/-! ## The averages -/

section Averages

variable {d : Desk} {c : Cohort}

theorem mem_cohortRows {r : Row} : r ∈ d.cohortRows c ↔ r ∈ d.store.samples ∧
    r.eligible ∧ r.generation = some d.store.generation ∧
    d.columns r.sample.id = some c.columns ∧
    (d.labels r.sample.id).hardwareKey = c.hardwareKey := by
  unfold Desk.cohortRows
  rw [List.mem_filter, Bool.and_eq_true, Bool.and_eq_true, Bool.and_eq_true, decide_eq_true_iff,
    decide_eq_true_iff, decide_eq_true_iff, and_assoc, and_assoc]

/-- The speed of a row of a cohort. -/
def speedOf (r : Row) : ℚ := r.sample.generationTps.getD 0

theorem uploadRow_ne_none {r : Row} (h : Store.uploadable py r = some true) :
    d.uploadRow py r ≠ none := by
  obtain ⟨columns, -, hpayload⟩ := @uploadRow_eq py d r h
  rw [hpayload]
  exact Option.some_ne_none _

/-- The rows that a cohort is averaged over. -/
def newest (d : Desk) (c : Cohort) : List Row :=
  ((d.cohortRows c).insertionSort Desk.newer).take sampleLimit

theorem mem_cohortRows_of_newest {r : Row} (h : r ∈ newest d c) : r ∈ d.cohortRows c :=
  (List.mem_insertionSort _).mp (List.mem_of_mem_take h)

theorem newest_eq_nil : newest d c = [] ↔ d.cohortRows c = [] := by
  unfold newest
  rw [List.take_eq_nil_iff, ← List.length_eq_zero_iff, List.length_insertionSort,
    List.length_eq_zero_iff]
  exact or_iff_right (by decide)

/-- The newest rows of a cohort all count. -/
theorem speeds_eq (hd : Sound py d) : d.speeds py c = some ((newest d c).map speedOf) := by
  have hrow : ∀ r ∈ newest d c, Store.uploadable py r = some true ∧
      (d.labels r.sample.id).hardwareKey = c.hardwareKey := by
    intro r hr
    obtain ⟨hmem, heligible, -, -, hkey⟩ := mem_cohortRows.mp (mem_cohortRows_of_newest hr)
    exact ⟨(hd.rows r hmem heligible).uploadable, hkey⟩
  unfold Desk.speeds
  rw [if_neg]
  · refine congrArg some (List.filterMap_eq_map_iff_forall_eq_some.mpr fun r hr => ?_)
    obtain ⟨hup, hkey⟩ := hrow r hr
    obtain ⟨columns, -, hpayload⟩ := @uploadRow_eq py d r hup
    obtain ⟨-, hspeed, -⟩ := comparable_true (comparable_of_uploadable hup)
    obtain ⟨speed, hspeed⟩ := Option.isSome_iff_exists.mp hspeed
    have htps : r.sample.generationTps = some speed :=
      (Option.filter_eq_some_iff.mp hspeed).1
    rw [hpayload]
    refine (if_pos (decide_eq_true hkey)).trans ?_
    unfold speedOf
    rw [hspeed, htps]
    rfl
  · intro hany
    obtain ⟨r, hr, hnone⟩ := List.any_eq_true.mp hany
    exact uploadRow_ne_none (hrow r hr).1 (of_decide_eq_true hnone)

theorem averaged_cons (hd : Sound py d) (id : String) (payloads : List (String × Cohort)) :
    d.averaged py ((id, c) :: payloads) =
      if d.cohortRows c = [] then none
      else (d.averaged py payloads).map
        ((id, outlierFilteredMean ((newest d c).map speedOf)) :: ·) := by
  rw [Desk.averaged, speeds_eq hd]
  cases hnewest : newest d c with
  | nil => rw [if_pos (newest_eq_nil.mp hnewest)]; rfl
  | cons r rows =>
    rw [if_neg fun hnil => List.cons_ne_nil r rows (hnewest.symm.trans (newest_eq_nil.mpr hnil))]
    rw [List.map_cons]
    cases d.averaged py payloads with
    | none => rfl
    | some entries => rfl

variable {payloads : List (String × Cohort)}

theorem averaged_eq_none_iff (hd : Sound py d) :
    d.averaged py payloads = none ↔ ∃ p ∈ payloads, d.cohortRows p.2 = [] := by
  induction payloads with
  | nil => exact iff_of_false (Option.some_ne_none _) fun ⟨p, hp, _⟩ => List.not_mem_nil hp
  | cons p payloads ih =>
    rw [averaged_cons hd, List.exists_mem_cons_iff]
    split
    case isTrue hnil => exact iff_of_true rfl (Or.inl hnil)
    case isFalse hne =>
      rw [Option.map_eq_none_iff, ih]
      exact (or_iff_right hne).symm

/-- A mean over rows of the current consent. -/
def CurrentMean (d : Desk) (speed : ℚ) : Prop :=
  ∃ rows : List Row, rows ≠ [] ∧ speed = outlierFilteredMean (rows.map speedOf) ∧
    ∀ r ∈ rows, r ∈ d.store.samples ∧ r.eligible ∧
      r.generation = some d.store.generation

theorem averaged_mean (hd : Sound py d) {entries : List (String × ℚ)}
    (h : d.averaged py payloads = some entries) : ∀ e ∈ entries, CurrentMean d e.2 := by
  induction payloads generalizing entries with
  | nil =>
    cases h
    exact fun e he => absurd he List.not_mem_nil
  | cons p payloads ih =>
    rw [averaged_cons hd] at h
    split at h
    case isTrue => cases h
    case isFalse hne =>
      obtain ⟨rest, hrest, rfl⟩ := Option.map_eq_some_iff.mp h
      intro e he
      obtain rfl | he := List.mem_cons.mp he
      · refine ⟨newest d p.2, fun hnil => hne (newest_eq_nil.mp hnil), rfl, fun r hr => ?_⟩
        obtain ⟨hmem, heligible, hgeneration, -⟩ :=
          mem_cohortRows.mp (mem_cohortRows_of_newest hr)
        exact ⟨hmem, heligible, hgeneration⟩
      · exact ih hrest e he

/-- The lookup fails for a cohort that has no row of the current consent. -/
theorem finish_failed_iff (hd : Sound py d) {wanted : List String} :
    d.finish py wanted payloads = .failed ↔ ∃ p ∈ payloads, d.cohortRows p.2 = [] := by
  rw [← averaged_eq_none_iff hd]
  unfold Desk.finish
  cases d.averaged py payloads with
  | none => exact iff_of_true rfl rfl
  | some entries => exact iff_of_false Reader.noConfusion (Option.some_ne_none _)

theorem finish_done (hd : Sound py d) {wanted : List String} {entries : List (String × ℚ)}
    (h : d.finish py wanted payloads = .done entries) : ∀ e ∈ entries, CurrentMean d e.2 := by
  unfold Desk.finish at h
  split at h
  · exact absurd h Reader.noConfusion
  case h_2 speeds hspeeds =>
    cases h
    intro e he
    obtain ⟨id, -, he⟩ := List.mem_filterMap.mp he
    obtain ⟨speed, hspeed, rfl⟩ := Option.map_eq_some_iff.mp he
    exact averaged_mean hd hspeeds _ (Assoc.mem_of_get hspeed)

end Averages

/-! ## Operations -/

/-- The row is not deleted. -/
def survives (py : Python) (o : Op) (r : Row) : Bool :=
  match o with
  | .deleteBenchmark id => r.sample.id ≠ id
  | .deleteModel repository => py.strip (r.sample.repository.getD "") ≠ repository
  | _ => true

/-- What becomes of a row that is not deleted. -/
def after (py : Python) (o : Op) (r : Row) : Row :=
  match o with
  | .open _ => if Store.invalid py r then { r with eligible := false } else r
  | _ => r

/-- The new consent is the one that holds. -/
def keepsConsent (py : Python) (s : Store) : Op → Prop
  | .setConsent enabled given fresh => enabled = s.consent ∧
      s.chosenCluster py enabled given fresh = some s.clusterId
  | .revoke => False
  | .bind sub => s.contributor.all (· = sub)
  | .open sameContract => sameContract = true ∨ s.consent = false
  | _ => True

/-- `uuid4` gives an identifier. -/
def Op.fresh (py : Python) : Op → Prop
  | .setConsent _ _ fresh => (py.uuid fresh).isSome
  | _ => True

section Operations

variable {s t : Store} {o : Op} {x : Sample}

/-- The row of a sample that is written. -/
structure NewRow (py : Python) (s t : Store) (x : Sample) (r : Row) : Prop where
  sample : r.sample = x
  new : ∀ r' ∈ s.samples, r'.sample.id ≠ x.id
  samples : t.samples = s.samples ++ [r]
  eligible : r.eligible → comparable py x = some true ∧ r.clusterId = s.clusterId ∧
    (truthy r.clusterId).isSome

theorem insert_row {clusterId : Option String} {generation : Option ℕ} {eligible : Bool}
    (hcluster : (truthy clusterId).isSome → clusterId = s.clusterId)
    (h : s.insert py x clusterId generation = some (eligible, t)) :
    ∃ r, NewRow py s t x r := by
  have hspec := insert_spec h
  refine ⟨_, rfl, ?_, hspec.samples, fun he => ⟨?_, ?_, hspec.truthy he⟩⟩
  · unfold Store.insert at h
    split at h
    case isTrue => cases h
    case isFalse hnew =>
      intro r hr hid
      exact hnew (List.any_eq_true.mpr ⟨r, hr, decide_eq_true hid⟩)
  · unfold Store.insert at h
    split at h
    case isTrue => cases h
    case isFalse =>
      obtain ⟨ok, hok, h⟩ := Option.bind_eq_some_iff.mp h
      obtain ⟨rfl, -⟩ := Prod.mk.inj (Option.some.inj h)
      obtain rfl : ok = true := he
      unfold Store.communityEligible sampleEligible at hok
      split at hok
      · split at hok
        · exact hok
        · cases hok
      · cases hok
  · exact hcluster (hspec.truthy he)

theorem addBenchmark_row {queued : Bool} (h : s.addBenchmark py x queued = some t) :
    ∃ r, NewRow py s t x r := by
  obtain ⟨⟨eligible, u⟩, hins, hq⟩ := Option.bind_eq_some_iff.mp h
  obtain ⟨r, hr⟩ := insert_row (fun htruthy => by
    split
    · rfl
    · rename_i hoff
      rw [if_neg hoff] at htruthy
      exact absurd htruthy Bool.false_ne_true) hins
  dsimp only at hq
  split at hq
  · exact ⟨r, hr.sample, hr.new, (queue_spec hq).2.1.trans hr.samples, hr.eligible⟩
  · cases hq
    exact ⟨r, hr⟩

theorem addIfConsented_row {expected : ℕ} {added : Bool}
    (h : s.addIfConsented py x expected = some (added, t)) :
    t = s ∨ ∃ r, NewRow py s t x r := by
  unfold Store.addIfConsented at h
  split at h
  · exact Or.inl (Prod.mk.inj (Option.some.inj h)).2.symm
  obtain ⟨ok, -, h⟩ := Option.bind_eq_some_iff.mp h
  split at h
  · obtain ⟨⟨eligible, u⟩, hins, h⟩ := Option.bind_eq_some_iff.mp h
    obtain ⟨r, hr⟩ := insert_row (fun _ => rfl) hins
    dsimp only at h
    split at h
    · obtain ⟨v, hq, h⟩ := Option.bind_eq_some_iff.mp h
      obtain ⟨-, rfl⟩ := Prod.mk.inj (Option.some.inj h)
      exact Or.inr ⟨r, hr.sample, hr.new, (queue_spec hq).2.1.trans hr.samples, hr.eligible⟩
    · obtain ⟨-, rfl⟩ := Prod.mk.inj (Option.some.inj h)
      exact Or.inr ⟨r, hr⟩
  · exact Or.inl (Prod.mk.inj (Option.some.inj h)).2.symm

/-- The rows that an operation keeps. -/
def kept (py : Python) (s : Store) (o : Op) : List Row :=
  (s.samples.filter (survives py o)).map (after py o)

/-- An operation writes one row, or keeps those that it does not delete. -/
theorem step_samples (h : step py s o = some t) :
    (∃ x r, o.sample = some x ∧ NewRow py s t x r) ∨ t.samples = kept py s o := by
  have hsame : ∀ {o : Op}, (∀ r, survives py o r) → (∀ r, after py o r = r) →
      kept py s o = s.samples := by
    intro o hall hid
    unfold kept
    rw [List.filter_eq_self.mpr fun r _ => hall r, List.map_congr_left fun r _ => hid r,
      List.map_id']
  cases o with
  | addBenchmark x queue =>
    obtain ⟨r, hr⟩ := addBenchmark_row h
    exact Or.inl ⟨x, r, rfl, hr⟩
  | addBenchmarkIfConsented x expected =>
    obtain ⟨⟨added, u⟩, hu, rfl⟩ := Option.map_eq_some_iff.mp h
    obtain rfl | ⟨r, hr⟩ := addIfConsented_row hu
    · exact Or.inr (hsame (fun _ => rfl) fun _ => rfl).symm
    · exact Or.inl ⟨x, r, rfl, hr⟩
  | addCoordinated x queue pointAccepted =>
    cases pointAccepted with
    | false => cases h
    | true =>
      obtain ⟨r, hr⟩ := addBenchmark_row h
      exact Or.inl ⟨x, r, rfl, hr⟩
  | addCoordinatedIfConsented x expected pointAccepted =>
    have hadd : ∃ added, s.addIfConsented py x expected = some (added, t) := by
      simp only [step] at h
      split at h
      case h_1 hu =>
        split at h
        · cases h
          exact ⟨_, hu⟩
        · cases h
      case h_2 hu =>
        cases h
        exact ⟨_, hu⟩
      case h_3 => cases h
    obtain ⟨added, hadd⟩ := hadd
    obtain rfl | ⟨r, hr⟩ := addIfConsented_row hadd
    · exact Or.inr (hsame (fun _ => rfl) fun _ => rfl).symm
    · exact Or.inl ⟨x, r, rfl, hr⟩
  | setConsent enabled clusterId fresh =>
    obtain ⟨chosen, -, h⟩ := Option.bind_eq_some_iff.mp h
    cases h
    refine Or.inr (Eq.trans ?_ (hsame (fun _ => rfl) fun _ => rfl).symm)
    split <;> rfl
  | bind sub =>
    refine Or.inr (Eq.trans ?_ (hsame (fun _ => rfl) fun _ => rfl).symm)
    simp only [step, Store.bind] at h
    split at h
    · cases h
    split at h
    · split at h <;> (obtain rfl := Option.some.inj h; rfl)
    · cases h
      rfl
  | markFailed ids error now =>
    cases h
    exact Or.inr ((markFailed_epoch error now ids s).2.trans
      (hsame (fun _ => rfl) fun _ => rfl).symm)
  | deleteBenchmark id | deleteModel repository =>
    cases h
    exact Or.inr ((List.filter_congr fun r _ => decide_not.symm).trans (List.map_id' _).symm)
  | «open» sameContract =>
    cases h
    have hall : s.samples.filter (survives py (.open sameContract)) = s.samples :=
      List.filter_eq_self.mpr fun r _ => rfl
    refine Or.inr ?_
    unfold kept
    rw [hall]
    cases sameContract <;> rfl
  | revoke | retry | promote | markSynced ids | setPairing paired sub =>
    cases h
    exact Or.inr (hsame (fun _ => rfl) fun _ => rfl).symm

theorem generation_of_epoch (h : t.epoch = s.epoch) : t.generation = s.generation :=
  congrArg (fun e => e.2.1) h

theorem cluster_of_epoch (h : t.epoch = s.epoch) : t.clusterId = s.clusterId :=
  congrArg (fun e => e.2.2.1) h

/-- What an operation does to the terms of the consent. -/
structure Terms (py : Python) (s t : Store) (o : Op) : Prop where
  generation : keepsConsent py s o → t.generation = s.generation
  cluster : ∀ id, t.clusterId = some id → s.clusterId = some id ∨ (py.uuid id).isSome

theorem Terms.of_epoch (h : t.epoch = s.epoch) : Terms py s t o :=
  ⟨fun _ => generation_of_epoch h, fun _ hid => Or.inl (cluster_of_epoch h ▸ hid)⟩

theorem setConsent_terms (huuid : ∀ x y, py.uuid x = some y → (py.uuid y).isSome)
    {enabled : Bool} {given : Option String} {fresh : String}
    (hfresh : (py.uuid fresh).isSome) (h : s.setConsent py enabled given fresh = some t) :
    Terms py s t (.setConsent enabled given fresh) := by
  obtain ⟨chosen, hchosen, h⟩ := Option.bind_eq_some_iff.mp h
  cases h
  constructor
  · rintro ⟨henabled, hkeep⟩
    obtain rfl : s.clusterId = chosen := Option.some.inj (hkeep.symm.trans hchosen)
    cases enabled <;> simp [henabled, Store.purge]
  · intro id hid
    cases enabled with
    | false => exact Or.inl hid
    | true =>
      have hid : chosen = some id := by
        rw [← hid]
        split <;> rfl
      subst hid
      unfold Store.chosenCluster at hchosen
      rw [if_pos rfl] at hchosen
      split at hchosen
      · obtain ⟨y, hy, hsome⟩ := Option.map_eq_some_iff.mp hchosen
        cases hsome
        exact Or.inr (huuid _ _ hy)
      · cases hchosen
        exact Or.inr hfresh
      · obtain ⟨y, hy, hsome⟩ := Option.map_eq_some_iff.mp hchosen
        cases hsome
        exact Or.inr (huuid _ _ hy)

theorem bind_terms {sub : String} (h : s.bind sub = some t) : Terms py s t (.bind sub) := by
  unfold Store.bind at h
  split at h
  · cases h
  split at h
  case h_1 previous hprevious =>
    split at h
    case isTrue hne =>
      cases h
      refine ⟨fun hkeep => ?_, fun id hid => Or.inl hid⟩
      unfold keepsConsent at hkeep
      rw [hprevious] at hkeep
      exact absurd (of_decide_eq_true hkeep) hne
    case isFalse =>
      cases h
      exact Terms.of_epoch rfl
  case h_2 =>
    cases h
    exact ⟨fun _ => rfl, fun id hid => Or.inl hid⟩

theorem migrate_terms (sameContract : Bool) :
    Terms py s (s.migrate py sameContract) (.open sameContract) := by
  cases sameContract with
  | true => exact ⟨fun _ => rfl, fun id hid => Or.inl hid⟩
  | false =>
    refine ⟨?_, fun id hid => Or.inl hid⟩
    rintro (h | hoff)
    · cases h
    · simp [Store.migrate, Store.purge, hoff]

theorem step_terms (huuid : ∀ x y, py.uuid x = some y → (py.uuid y).isSome)
    (hfresh : o.fresh py) (h : step py s o = some t) : Terms py s t o := by
  cases o with
  | addBenchmark x queue => exact Terms.of_epoch (addBenchmark_spec h).epoch
  | addBenchmarkIfConsented x expected =>
    obtain ⟨⟨added, u⟩, hu, rfl⟩ := Option.map_eq_some_iff.mp h
    exact Terms.of_epoch (addIfConsented_spec hu).1.epoch
  | addCoordinated x queue pointAccepted =>
    cases pointAccepted with
    | false => cases h
    | true => exact Terms.of_epoch (addBenchmark_spec h).epoch
  | addCoordinatedIfConsented x expected pointAccepted =>
    simp only [step] at h
    split at h
    case h_1 hu =>
      split at h
      · cases h
        exact Terms.of_epoch (addIfConsented_spec hu).1.epoch
      · cases h
    case h_2 hu =>
      cases h
      exact Terms.of_epoch (addIfConsented_spec hu).1.epoch
    case h_3 => cases h
  | setConsent enabled given fresh => exact setConsent_terms huuid hfresh h
  | revoke =>
    cases h
    exact ⟨False.elim, fun id hid => absurd hid.symm (Option.some_ne_none _)⟩
  | bind sub => exact bind_terms h
  | markFailed ids error now =>
    cases h
    exact Terms.of_epoch (markFailed_epoch error now ids s).1
  | «open» sameContract =>
    cases h
    exact migrate_terms sameContract
  | retry | promote | markSynced ids | deleteBenchmark id | deleteModel repository
  | setPairing paired sub =>
    cases h
    exact Terms.of_epoch rfl

end Operations

section Desk

variable {d : Desk} {t : Store} {o : Op} {l : Label}

theorem operate_store : (d.operate py refill o l t).store = t := by
  cases o with
  | addBenchmark | addBenchmarkIfConsented | addCoordinated | addCoordinatedIfConsented =>
    simp only [Desk.operate, Op.sample, Desk.insertRow]
    split <;> rfl
  | _ => rfl

theorem operate_reader : (d.operate py refill o l t).reader = d.reader := by
  cases o with
  | addBenchmark | addBenchmarkIfConsented | addCoordinated | addCoordinatedIfConsented =>
    simp only [Desk.operate, Op.sample, Desk.insertRow]
    split <;> rfl
  | _ => rfl

theorem operate_of_sample {x : Sample} (hx : o.sample = some x) :
    d.operate py refill o l t = d.insertRow py x l t := by
  cases o with
  | addBenchmark | addBenchmarkIfConsented | addCoordinated | addCoordinatedIfConsented =>
    cases hx
    rfl
  | _ => cases hx

/-- What belongs to a row that is there already stays with it. -/
theorem operate_same {r : Row} (hr : r ∈ d.store.samples) {c : Columns}
    (hc : d.columns r.sample.id = some c) :
    (d.operate py refill o l t).labels r.sample.id = d.labels r.sample.id ∧
    (d.operate py refill o l t).columns r.sample.id = some c := by
  have hinsert : ∀ x : Sample, (d.insertRow py x l t).labels r.sample.id = d.labels r.sample.id ∧
      (d.insertRow py x l t).columns r.sample.id = some c := by
    intro x
    unfold Desk.insertRow
    split
    case isTrue => exact ⟨rfl, hc⟩
    case isFalse hnew =>
      have hne : r.sample.id ≠ x.id := fun hid =>
        hnew (List.any_eq_true.mpr ⟨r, hr, decide_eq_true hid⟩)
      exact ⟨update_of_ne hne _ _, (update_of_ne hne _ _).trans hc⟩
  cases hx : o.sample with
  | some x =>
    rw [operate_of_sample hx]
    exact hinsert x
  | none =>
    cases o with
    | «open» sameContract =>
      refine ⟨rfl, ?_⟩
      change d.refillColumns refill r.sample.id = some c
      unfold Desk.refillColumns
      rw [hc]
    | addBenchmark | addBenchmarkIfConsented | addCoordinated | addCoordinatedIfConsented =>
      cases hx
    | _ => exact ⟨rfl, hc⟩

theorem RowSound.columns_some {r : Row} (h : RowSound py d r) :
    ∃ c, columnsOf py r.sample (d.labels r.sample.id) = some c ∧
      d.columns r.sample.id = some c := by
  obtain ⟨c, hc⟩ := columnsOf_isSome (comparable_of_uploadable h.uploadable) (d.labels r.sample.id)
  exact ⟨c, hc, h.columns.trans hc⟩

theorem RowSound.operate {r : Row} (h : RowSound py d r) (hr : r ∈ d.store.samples) :
    RowSound py (d.operate py refill o l t) r := by
  obtain ⟨c, hc, hcolumns⟩ := h.columns_some
  obtain ⟨hlabels, hsame⟩ :=
    @operate_same py refill d t o l r hr c hcolumns
  refine ⟨h.uploadable, ?_⟩
  rw [hsame, hlabels, hc]

/-- A row with a payload is not taken for an invalid one. -/
theorem RowSound.valid {r : Row} (h : RowSound py d r) : Store.invalid py r = false := by
  obtain ⟨hprompt, hspeed, size, hsize⟩ := comparable_true (comparable_of_uploadable h.uploadable)
  have huuid : (r.clusterId.bind py.uuid).isSome := by
    have hup := h.uploadable
    unfold Store.uploadable at hup
    split at hup
    case isTrue hsome => exact hsome
    case isFalse => cases hup
  unfold Store.invalid
  rw [← Option.not_isSome, ← Option.not_isSome, ← Option.not_isSome, hprompt, hspeed, huuid, hsize]
  cases r.eligible <;> rfl

theorem after_sample (o : Op) (r : Row) : (after py o r).sample = r.sample := by
  unfold after
  split
  · split <;> rfl
  · rfl

/-- A row that is eligible afterwards has not changed. -/
theorem after_eligible {r : Row} (h : (after py o r).eligible) : after py o r = r := by
  unfold after at h ⊢
  split at h
  · split at h
    · cases h
    case isFalse hvalid => rw [if_neg hvalid]
  · rfl

theorem after_valid {r : Row} (h : Store.invalid py r = false) : after py o r = r := by
  unfold after
  split
  · rw [if_neg (by rw [h]; decide)]
  · rfl

/-- A sound row that is not deleted is there afterwards. -/
theorem mem_step {r : Row} (h : step py d.store o = some t) (hr : r ∈ d.store.samples)
    (hsound : RowSound py d r) (hs : survives py o r) : r ∈ t.samples := by
  obtain ⟨x, r', -, hnew⟩ | hkept := step_samples h
  · rw [hnew.samples]
    exact List.mem_append_left _ hr
  · rw [hkept]
    exact List.mem_map.mpr ⟨r, List.mem_filter.mpr ⟨hr, hs⟩, after_valid hsound.valid⟩

/-- The columns of a new row are those of its sample. -/
theorem newRow_sound (hd : Sound py d) {x : Sample} {r : Row} (hx : o.sample = some x)
    (hnew : NewRow py d.store t x r) (heligible : r.eligible) :
    RowSound py (d.operate py refill o l t) r := by
  obtain ⟨hcomparable, hcluster, htruthy⟩ := hnew.eligible heligible
  obtain ⟨id, hid⟩ := Option.isSome_iff_exists.mp htruthy
  have hid : r.clusterId = some id := (Option.filter_eq_some_iff.mp hid).1
  constructor
  · have huuid := hd.cluster id (hcluster.symm.trans hid)
    unfold Store.uploadable
    rw [hid, Option.bind_some, if_pos huuid, hnew.sample, hcomparable]
  · have hfresh : (d.store.samples.any fun r => decide (r.sample.id = x.id)) = false :=
      List.any_eq_false.mpr fun r' hr' => decide_eq_false (hnew.new r' hr') ▸ Bool.false_ne_true
    have hthere : (t.samples.any fun r => decide (r.sample.id = x.id) && r.eligible) := by
      refine List.any_eq_true.mpr ⟨r, ?_, ?_⟩
      · rw [hnew.samples]
        exact List.mem_append_right _ (List.mem_singleton_self r)
      · rw [hnew.sample, decide_eq_true rfl, heligible]
        rfl
    rw [operate_of_sample hx, hnew.sample]
    unfold Desk.insertRow
    rw [hfresh, hthere]
    rw [if_neg Bool.false_ne_true]
    dsimp only
    rw [update_self, update_self, if_pos rfl]

/-- **Every operation keeps the columns right.** -/
theorem sound_step (huuid : ∀ x y, py.uuid x = some y → (py.uuid y).isSome)
    (hd : Sound py d) (hfresh : o.fresh py) (h : step py d.store o = some t) :
    Sound py (d.operate py refill o l t) := by
  constructor
  · rw [operate_store]
    obtain ⟨x, r, -, hnew⟩ | hkept := step_samples h
    · rw [hnew.samples, List.map_append, List.nodup_append]
      refine ⟨hd.ids, List.nodup_singleton _, fun id hid id' hid' => ?_⟩
      obtain ⟨r', hr', rfl⟩ := List.mem_map.mp hid
      obtain rfl := List.mem_singleton.mp hid'
      exact fun hsame => hnew.new r' hr' (hsame.trans (congrArg Sample.id hnew.sample))
    · rw [hkept]
      have hids : (fun r : Row => r.sample.id) ∘ after py o = fun r => r.sample.id :=
        funext fun r => congrArg Sample.id (after_sample o r)
      unfold kept
      rw [List.map_map, hids]
      exact hd.ids.sublist (List.filter_sublist.map _)
  · intro id hid
    rw [operate_store] at hid
    obtain hold | hnew := (step_terms huuid hfresh h).cluster id hid
    · exact hd.cluster id hold
    · exact hnew
  · intro r hr heligible
    rw [operate_store] at hr
    obtain ⟨x, r', hx, hnew⟩ | hkept := step_samples h
    · rw [hnew.samples] at hr
      obtain hr | hr := List.mem_append.mp hr
      · exact (hd.rows r hr heligible).operate hr
      · obtain rfl := List.mem_singleton.mp hr
        exact newRow_sound hd hx hnew heligible
    · rw [hkept] at hr
      obtain ⟨r, hold, rfl⟩ := List.mem_map.mp hr
      have hmem := (List.mem_filter.mp hold).1
      have hsame := after_eligible heligible
      rw [hsame] at heligible ⊢
      exact (hd.rows r hmem heligible).operate hmem

/-! ## A call -/

/-- The row of a cohort is there after an operation that keeps the consent and the row. -/
theorem cohortRows_step (huuid : ∀ x y, py.uuid x = some y → (py.uuid y).isSome)
    (hd : Sound py d) (hfresh : o.fresh py) (h : step py d.store o = some t)
    (hkeep : keepsConsent py d.store o) {c : Cohort} {r : Row} (hr : r ∈ d.cohortRows c)
    (hs : survives py o r) : r ∈ (d.operate py refill o l t).cohortRows c := by
  obtain ⟨hmem, heligible, hgeneration, hcolumns, hkey⟩ := mem_cohortRows.mp hr
  obtain ⟨hlabels, hsame⟩ := @operate_same py refill d t o l r hmem _ hcolumns
  refine mem_cohortRows.mpr ⟨?_, heligible, ?_, hsame, ?_⟩
  · rw [operate_store]
    exact mem_step h hmem (hd.rows r hmem heligible) hs
  · rw [operate_store, (step_terms huuid hfresh h).generation hkeep, hgeneration]
  · rw [hlabels, hkey]

/-- The rows of the ids that a call has listed are of the current consent. -/
def Listed (d : Desk) (wanted : List String) : Prop :=
  ∀ r ∈ d.store.samples, r.sample.id ∈ wanted →
    r.eligible ∧ r.generation = some d.store.generation

/-- Every cohort that a call has read has a row of the current consent. -/
def Read (d : Desk) (payloads : List (String × Cohort)) : Prop :=
  ∀ p ∈ payloads, d.cohortRows p.2 ≠ []

/-- What a call relies on. -/
def Ready (d : Desk) : Prop :=
  match d.reader with
  | .listed wanted => Listed d wanted
  | .read _ payloads => Read d payloads
  | .failed => False
  | _ => True

/-- The condition on a step. -/
def quiet (py : Python) (d : Desk) : Act → Prop
  | .op o _ => o.fresh py ∧ clean d.store o ∧
    match d.reader with
    | .listed wanted => keepsConsent py d.store o ∧ ∀ x ∈ o.sample, x.id ∈ wanted →
        ∃ r ∈ d.store.samples, r.sample.id = x.id
    | .read _ payloads => keepsConsent py d.store o ∧
        ∀ p ∈ payloads, ∃ r ∈ d.cohortRows p.2, survives py o r
    | _ => True
  | _ => True

theorem listed_due (hd : Sound py d) (hs : Airtight d.store) (limit : ℕ) (now : ℚ) :
    Listed d (d.due limit now) := by
  intro r hr hid
  obtain ⟨e, he, hsample⟩ := List.mem_map.mp hid
  have he := List.mem_filter.mp ((List.mem_insertionSort _).mp (List.mem_of_mem_take he))
  have hunsent : e.unsent := by
    unfold Entry.unsent
    cases hstatus : e.status with
    | synced =>
      rw [hstatus] at he
      cases he.2
    | _ => rfl
  obtain ⟨-, r', hr', hid', heligible, hgeneration, -⟩ := hs e he.1 hunsent
  have hsame : r' = r :=
    List.inj_on_of_nodup_map hd.ids hr' hr (hid'.trans hsample)
  exact hsame ▸ ⟨heligible, hgeneration⟩

/-- Where the listed rows are of the current consent, every payload finds its own row. -/
theorem read_payloads (hd : Sound py d) {wanted : List String} (h : Listed d wanted) :
    ∃ payloads, d.payloads py wanted = some payloads ∧ Read d payloads := by
  have hrow : ∀ r ∈ d.store.samples.filter fun r => r.sample.id ∈ wanted,
      RowSound py d r ∧ r ∈ d.store.samples ∧ r.eligible ∧
        r.generation = some d.store.generation := by
    intro r hr
    obtain ⟨hmem, hid⟩ := List.mem_filter.mp hr
    obtain ⟨heligible, hgeneration⟩ := h r hmem (of_decide_eq_true hid)
    exact ⟨hd.rows r hmem heligible, hmem, heligible, hgeneration⟩
  unfold Desk.payloads
  rw [if_neg]
  · refine ⟨_, rfl, fun p hp => ?_⟩
    obtain ⟨r, hr, hp⟩ := List.mem_filterMap.mp hp
    obtain ⟨hsound, hmem, heligible, hgeneration⟩ := hrow r hr
    obtain ⟨c, hc, hpayload⟩ := @uploadRow_eq py d r hsound.uploadable
    rw [hpayload] at hp
    cases hp
    exact List.ne_nil_of_mem (mem_cohortRows.mpr
      ⟨hmem, heligible, hgeneration, hsound.columns.trans hc, rfl⟩)
  · intro hany
    obtain ⟨r, hr, hnone⟩ := List.any_eq_true.mp hany
    exact uploadRow_ne_none (hrow r hr).1.uploadable (of_decide_eq_true hnone)

/-- **A quiet operation leaves a call what it relies on.** -/
theorem ready_op (huuid : ∀ x y, py.uuid x = some y → (py.uuid y).isSome)
    (hd : Sound py d) (hready : Ready d) (hq : quiet py d (.op o l))
    (h : step py d.store o = some t) : Ready (d.operate py refill o l t) := by
  obtain ⟨hfresh, -, hq⟩ := hq
  unfold Ready at hready ⊢
  rw [operate_reader]
  cases hreader : d.reader with
  | idle => trivial
  | done => trivial
  | failed =>
    rw [hreader] at hready
    exact hready
  | listed wanted =>
    rw [hreader] at hready hq
    obtain ⟨hkeep, hadd⟩ := hq
    intro r hr hid
    rw [operate_store] at hr ⊢
    rw [(step_terms huuid hfresh h).generation hkeep]
    obtain ⟨x, r', hx, hnew⟩ | hkept := step_samples h
    · rw [hnew.samples] at hr
      obtain hr | hr := List.mem_append.mp hr
      · exact hready r hr hid
      · obtain rfl := List.mem_singleton.mp hr
        obtain ⟨r', hr', hsame⟩ := hadd x hx (hnew.sample ▸ hid)
        exact absurd hsame (hnew.new r' hr')
    · rw [hkept] at hr
      obtain ⟨r, hold, rfl⟩ := List.mem_map.mp hr
      have hmem := (List.mem_filter.mp hold).1
      rw [after_sample] at hid
      obtain ⟨heligible, hgeneration⟩ := hready r hmem hid
      rw [after_valid (hd.rows r hmem heligible).valid]
      exact ⟨heligible, hgeneration⟩
  | read wanted payloads =>
    rw [hreader] at hready hq
    obtain ⟨hkeep, hrows⟩ := hq
    intro p hp
    obtain ⟨r, hr, hs⟩ := hrows p hp
    exact List.ne_nil_of_mem (cohortRows_step huuid hd hfresh h hkeep hr hs)

/-! ## Runs -/

structure Healthy (py : Python) (d : Desk) : Prop where
  sound : Sound py d
  airtight : Airtight d.store
  ready : Ready d

theorem Sound.reader (hd : Sound py d) (reader : Reader) : Sound py { d with reader } :=
  ⟨hd.ids, hd.cluster, fun r hr heligible =>
    ⟨(hd.rows r hr heligible).uploadable, (hd.rows r hr heligible).columns⟩⟩

theorem finish_of_read (hd : Sound py d) (wanted : List String)
    {payloads : List (String × Cohort)} (h : Read d payloads) :
    ∃ entries, d.finish py wanted payloads = .done entries ∧ ∀ e ∈ entries, CurrentMean d e.2 := by
  cases hfinish : d.averaged py payloads with
  | none =>
    obtain ⟨p, hp, hnil⟩ := (averaged_eq_none_iff hd).mp hfinish
    exact absurd hnil (h p hp)
  | some entries =>
    have hdone : d.finish py wanted payloads = .done (wanted.filterMap fun id =>
        (Assoc.get entries id).map fun speed => (id, speed)) := by
      unfold Desk.finish
      rw [hfinish]
    exact ⟨_, hdone, finish_done hd hdone⟩

/-- A step keeps the columns right, whoever makes it. -/
theorem sound_act (huuid : ∀ x y, py.uuid x = some y → (py.uuid y).isSome) {d' : Desk}
    {a : Act} (hd : Sound py d) (hfresh : ∀ o l, a = .op o l → o.fresh py)
    (h : act py refill d a = some d') : Sound py d' := by
  cases a with
  | op o l =>
    obtain ⟨t, ht, rfl⟩ := Option.map_eq_some_iff.mp h
    exact sound_step huuid hd (hfresh o l rfl) ht
  | list limit now =>
    simp only [act] at h
    split at h
    · cases h
    · cases h
    · cases h
      exact hd.reader _
  | rows | averages =>
    simp only [act] at h
    split at h
    · cases h
      exact hd.reader _
    · cases h

theorem healthy_act (huuid : ∀ x y, py.uuid x = some y → (py.uuid y).isSome) {d' : Desk}
    {a : Act} (hd : Healthy py d) (hq : quiet py d a) (h : act py refill d a = some d') :
    Healthy py d' := by
  have hsound : Sound py d' := sound_act huuid hd.sound (fun o l ha => by
    subst ha
    exact hq.1) h
  cases a with
  | op o l =>
    obtain ⟨t, ht, rfl⟩ := Option.map_eq_some_iff.mp h
    refine ⟨hsound, ?_, ready_op huuid hd.sound hd.ready hq ht⟩
    rw [operate_store]
    exact (step_spec ht).2 hq.2.1 hd.airtight
  | list limit now =>
    simp only [act] at h
    split at h
    · cases h
    · cases h
    · cases h
      refine ⟨hsound, hd.airtight, ?_⟩
      split_ifs
      · trivial
      · exact listed_due hd.sound hd.airtight limit now
  | rows =>
    simp only [act] at h
    split at h
    case h_1 wanted hreader =>
      have hready := hd.ready
      unfold Ready at hready
      rw [hreader] at hready
      obtain ⟨payloads, hpayloads, hread⟩ := read_payloads hd.sound hready
      rw [hpayloads] at h
      cases h
      exact ⟨hsound, hd.airtight, hread⟩
    case h_2 => cases h
  | averages =>
    simp only [act] at h
    split at h
    case h_1 wanted payloads hreader =>
      have hready := hd.ready
      unfold Ready at hready
      rw [hreader] at hready
      obtain ⟨entries, hdone, -⟩ := finish_of_read hd.sound wanted hready
      rw [hdone] at h
      cases h
      exact ⟨hsound, hd.airtight, trivial⟩
    case h_2 => cases h

theorem sound_opened (labels : String → Label) : Sound py (Desk.opened labels) :=
  ⟨List.nodup_nil, fun _ h => absurd h.symm (Option.some_ne_none _),
    fun _ hr => absurd hr List.not_mem_nil⟩

/-- The identifiers that the operations are labelled with are `uuid4`'s. -/
def genuine (py : Python) (_ : Desk) (a : Act) : Prop := ∀ o l, a = .op o l → o.fresh py

/-- **Reading the outbox.** In a run of quiet steps no call fails, and what it returns are means
over rows of the current consent. In every run, the last query of a call fails exactly if a cohort
that the call has read has no eligible row of the current consent. -/
theorem outboxEntries_quiet (huuid : ∀ x y, py.uuid x = some y → (py.uuid y).isSome = true)
    (labels : String → Label) :
    (∀ d, Reach (act py refill) (quiet py) (Desk.opened labels) d →
      d.reader ≠ .failed ∧ ∀ wanted payloads, d.reader = .read wanted payloads →
        ∃ entries, d.finish py wanted payloads = .done entries ∧
          ∀ e ∈ entries, CurrentMean d e.2) ∧
    ∀ d, Reach (act py refill) (genuine py) (Desk.opened labels) d →
      ∀ wanted payloads, d.reader = .read wanted payloads →
        (d.finish py wanted payloads = .failed ↔ ∃ p ∈ payloads, d.cohortRows p.2 = []) := by
  constructor
  · intro d hrun
    have hd : Healthy py d := hrun.invariant
      ⟨sound_opened labels, fun _ he => absurd he List.not_mem_nil, trivial⟩
      fun _ _ _ ha hq hstep => healthy_act huuid ha hq hstep
    have hready := hd.ready
    unfold Ready at hready
    refine ⟨fun hfailed => ?_, fun wanted payloads hreader => ?_⟩
    · rw [hfailed] at hready
      exact hready
    · rw [hreader] at hready
      exact finish_of_read hd.sound wanted hready
  · intro d hrun wanted payloads _
    have hd : Sound py d := hrun.invariant (sound_opened labels)
      fun _ _ _ ha hgenuine hstep => sound_act huuid ha hgenuine hstep
    exact finish_failed_iff hd

end Desk

/-! ## A consent that ends between the queries -/

section Between

instance (py : Python) (o : Op) : Decidable (o.fresh py) :=
  match o with
  | .setConsent _ _ fresh => inferInstanceAs (Decidable ((py.uuid fresh).isSome))
  | .addBenchmark .. | .addBenchmarkIfConsented .. | .addCoordinated .. |
    .addCoordinatedIfConsented .. | .revoke | .bind .. | .retry | .promote | .markSynced .. |
    .markFailed .. | .deleteBenchmark .. | .deleteModel .. | .setPairing .. | .open .. =>
    isTrue trivial

instance (py : Python) (s : Store) (o : Op) : Decidable (keepsConsent py s o) :=
  match o with
  | .setConsent enabled given fresh => inferInstanceAs (Decidable (enabled = s.consent ∧
      s.chosenCluster py enabled given fresh = some s.clusterId))
  | .revoke => isFalse id
  | .bind sub => inferInstanceAs (Decidable (s.contributor.all (· = sub)))
  | .open sameContract => inferInstanceAs (Decidable (sameContract = true ∨ s.consent = false))
  | .addBenchmark .. | .addBenchmarkIfConsented .. | .addCoordinated .. |
    .addCoordinatedIfConsented .. | .retry | .promote | .markSynced .. | .markFailed .. |
    .deleteBenchmark .. | .deleteModel .. | .setPairing .. => isTrue trivial

instance (py : Python) (d : Desk) (a : Act) : Decidable (quiet py d a) :=
  match a with
  | .op o _ =>
    have : Decidable (match d.reader with
      | .listed wanted => keepsConsent py d.store o ∧ ∀ x ∈ o.sample, x.id ∈ wanted →
          ∃ r ∈ d.store.samples, r.sample.id = x.id
      | .read _ payloads => keepsConsent py d.store o ∧
          ∀ p ∈ payloads, ∃ r ∈ d.cohortRows p.2, survives py o r
      | _ => True) := match d.reader with
      | .listed _ | .read _ _ => inferInstanceAs (Decidable (_ ∧ _))
      | .idle | .done _ | .failed => isTrue trivial
    inferInstanceAs (Decidable (_ ∧ _ ∧ _))
  | .list .. | .rows | .averages => isTrue trivial

def unlabelled : Label := ⟨"UNKNOWN", "unknown"⟩

def noRefill (_ : Sample) (_ : Label) : Option Columns := none

def asActs (ops : List Op) : List Act := ops.map fun o => .op o unlabelled

def replayed (ops : List Act) : Option Desk :=
  replay (act plain noRefill) Free (Desk.opened fun _ => unlabelled) ops

/-- The consent is withdrawn, or the sample deleted, between the queries; or the row of an earlier
consent has come back, as `sent_then_failed` shows. -/
theorem consent_between :
    (replayed (asActs share ++ [.list 50 2, .op (.setConsent false none cluster) unlabelled,
      .rows, .averages])).any (fun d => d.reader = .failed) = true ∧
    (replayed (asActs share ++ [.list 50 2, .rows, .op (.deleteBenchmark "first") unlabelled,
      .averages])).any (fun d => d.reader = .failed) = true ∧
    (replayed (asActs (share ++ fails) ++ [.list 50 17, .rows, .averages])).any
      (fun d => d.reader = .failed) = true := by
  refine ⟨by decide +kernel, by decide +kernel, by decide +kernel⟩

theorem plain_uuid (x y : String) (h : plain.uuid x = some y) : (plain.uuid y).isSome := by
  have h : (if x = cluster then some x else none) = some y := h
  split at h
  case isTrue hx =>
    cases h
    subst hx
    decide
  case isFalse => cases h

def Reader.hasRead : Reader → Bool
  | .read _ payloads => payloads ≠ []
  | _ => false

/-- A shared measurement is read with its own mean. -/
theorem outboxEntries_quiet_share :
    ∃ d wanted payloads, d.reader = .read wanted payloads ∧ payloads ≠ [] ∧
      (∃ entries, d.finish plain wanted payloads = .done entries ∧
        ∀ e ∈ entries, CurrentMean d e.2) ∧
      ¬ (∃ p ∈ payloads, d.cohortRows p.2 = []) := by
  have hrun : (replay (act plain noRefill) (quiet plain) (Desk.opened fun _ => unlabelled)
      (asActs share ++ [.list 50 2, .rows])).any (fun d => d.reader.hasRead) = true := by
    decide +kernel
  obtain ⟨d, hreach, hreader⟩ := reach_any hrun
  unfold Reader.hasRead at hreader
  split at hreader
  case h_1 wanted payloads hread =>
    have hall := @outboxEntries_quiet plain noRefill plain_uuid fun _ => unlabelled
    obtain ⟨entries, hdone, hmean⟩ := (hall.1 d hreach).2 wanted payloads hread
    have hgenuine : Reach (act plain noRefill) (genuine plain) (Desk.opened fun _ => unlabelled)
        d := hreach.mono fun d a hq o l ha => by
        subst ha
        exact hq.1
    refine ⟨d, wanted, payloads, hread, of_decide_eq_true hreader, ⟨entries, hdone, hmean⟩, ?_⟩
    rw [← hall.2 d hgenuine wanted payloads hread, hdone]
    exact Reader.noConfusion
  case h_2 => cases hreader

end Between

end SparkDeck.Consent
