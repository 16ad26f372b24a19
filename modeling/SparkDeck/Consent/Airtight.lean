import SparkDeck.Consent.Store

/-!
# What may leave the store

Every row of the outbox that is not sent is to be of the current consent: `Airtight`. An operation
that ends a consent takes away what is not sent, and each of the others keeps it, but for
`mark_outbox_failed`. It asks nothing of a row, so that a row which was sent under an earlier
consent is unsent again.

* `clean` is the condition on a step: a row that `mark_outbox_failed` names is unsent, or still of
  the current consent.
* `airtight_step`: a step keeps `Airtight` exactly if it is clean.
* `consent_airtight`: in a run of clean steps the outbox is airtight. In every run the generation
  does not fall, and no sample of a snapshot is queued once the consent, the identity or the
  contributor has changed after it.
* `sent_then_failed`: one of two overlapping uploads fails, after the consent that its row was sent
  under was withdrawn.
-/

namespace SparkDeck.Consent

open Transition

/-- The sample is eligible, and of the current consent and identity. -/
structure Current (s : Store) (id : String) : Prop where
  consent : s.consent
  row : ∃ r ∈ s.samples, r.sample.id = id ∧ r.eligible ∧
    r.generation = some s.generation ∧ r.clusterId = s.clusterId

instance (s : Store) (id : String) : Decidable (Current s id) :=
  decidable_of_iff (s.consent ∧ ∃ r ∈ s.samples, r.sample.id = id ∧ r.eligible ∧
      r.generation = some s.generation ∧ r.clusterId = s.clusterId)
    ⟨fun h => ⟨h.1, h.2⟩, fun h => ⟨h.consent, h.row⟩⟩

/-- What is not sent is of the current consent. -/
def Airtight (s : Store) : Prop := ∀ e ∈ s.outbox, e.unsent → Current s e.sampleId

/-- The condition on a step. -/
def clean (s : Store) : Op → Prop
  | .markFailed ids _ _ => ∀ e ∈ s.outbox, e.sampleId ∈ ids → e.unsent ∨ Current s e.sampleId
  | _ => True

instance (s : Store) (op : Op) : Decidable (clean s op) :=
  match op with
  | .markFailed ids _ _ => inferInstanceAs
      (Decidable (∀ e ∈ s.outbox, e.sampleId ∈ ids → e.unsent ∨ Current s e.sampleId))
  | .addBenchmark .. | .addBenchmarkIfConsented .. | .addCoordinated .. |
    .addCoordinatedIfConsented .. | .setConsent .. | .revoke | .bind .. | .retry | .promote |
    .markSynced .. | .deleteBenchmark .. | .deleteModel .. | .setPairing .. | .open .. =>
    isTrue trivial

/-! ## What an operation does to the epoch -/

/-- The fields that a snapshot and the boundaries between consents are made of. -/
def Store.epoch (s : Store) : Bool × ℕ × Option String × Option String :=
  (s.consent, s.generation, s.clusterId, s.contributor)

/-- The consent is withdrawn, or the identity or the contributor is another one. -/
def Boundary (s t : Store) : Prop :=
  (s.consent = true ∧ t.consent = false) ∨ s.clusterId ≠ t.clusterId ∨
    ∃ sub, s.contributor = some sub ∧ t.contributor ≠ some sub

/-- The generation does not fall, and grows over a boundary. -/
structure Forward (s t : Store) : Prop where
  le : s.generation ≤ t.generation
  lt : Boundary s t → s.generation < t.generation

variable {s t : Store}

theorem Forward.of_epoch (h : t.epoch = s.epoch) : Forward s t := by
  simp only [Store.epoch, Prod.mk.injEq] at h
  obtain ⟨hconsent, hgeneration, hcluster, hcontributor⟩ := h
  refine ⟨hgeneration.ge, fun hb => ?_⟩
  obtain ⟨hon, hoff⟩ | hne | ⟨sub, hsub, hne⟩ := hb
  · rw [hconsent, hon] at hoff
    cases hoff
  · exact absurd hcluster.symm hne
  · exact absurd (hcontributor.trans hsub) hne

theorem Forward.of_lt (h : s.generation < t.generation) : Forward s t :=
  ⟨h.le, fun _ => h⟩

/-- A sample of the current consent stays so while its row and the epoch do. -/
theorem Current.mono {id : String} (h : Current s id) (hepoch : t.epoch = s.epoch)
    (hrows : ∀ r ∈ s.samples, r.sample.id = id → r ∈ t.samples) : Current t id := by
  simp only [Store.epoch, Prod.mk.injEq] at hepoch
  obtain ⟨hconsent, hgeneration, hcluster, -⟩ := hepoch
  obtain ⟨r, hr, hid, heligible, hg, hc⟩ := h.row
  exact ⟨hconsent.trans h.consent, r, hrows r hr hid, hid, heligible, hgeneration ▸ hg,
    hcluster ▸ hc⟩

theorem Airtight.of_sent {s : Store} (h : ∀ e ∈ s.outbox, e.unsent = false) : Airtight s := by
  intro e he hu
  rw [h e he] at hu
  cases hu

theorem purge_sent (s : Store) : ∀ e ∈ s.purge.outbox, e.unsent = false := by
  intro e he
  exact Bool.not_eq_true' _ ▸ (List.mem_filter.mp he).2

/-- Without consent nothing is unsent. -/
theorem Airtight.sent {s : Store} (h : Airtight s) (hoff : s.consent = false) :
    ∀ e ∈ s.outbox, e.unsent = false := by
  intro e he
  cases hu : e.unsent with
  | false => rfl
  | true => exact absurd ((h e he hu).consent) (by rw [hoff]; exact Bool.false_ne_true)

/-! ## Samples -/

variable {py : Python}

structure Inserted (py : Python) (s t : Store) (x : Sample) (clusterId : Option String)
    (generation : Option ℕ) (eligible : Bool) : Prop where
  samples : t.samples =
    s.samples ++ [⟨x, eligible, clusterId, if eligible then generation else none⟩]
  outbox : t.outbox = s.outbox
  epoch : t.epoch = s.epoch
  truthy : eligible → (truthy clusterId).isSome

variable {x : Sample}

theorem insert_spec {clusterId : Option String} {generation : Option ℕ} {eligible : Bool}
    (h : s.insert py x clusterId generation = some (eligible, t)) :
    Inserted py s t x clusterId generation eligible := by
  obtain ⟨_, h⟩ := Option.ite_none_left_eq_some.mp h
  obtain ⟨ok, hok, h⟩ := Option.bind_eq_some_iff.mp h
  cases h
  refine ⟨rfl, rfl, rfl, fun he => ?_⟩
  unfold Store.communityEligible at hok
  split at hok
  case isTrue ht => exact ht
  case isFalse =>
    cases hok
    cases he

theorem queue_spec (h : s.queue x = some t) :
    t.epoch = s.epoch ∧ t.samples = s.samples ∧
      ∃ status, t.outbox = s.outbox ++ [⟨x.id, status, 0, none, none, x.createdAt⟩] := by
  obtain ⟨_, h⟩ := Option.ite_none_left_eq_some.mp h
  cases h
  exact ⟨rfl, rfl, _, rfl⟩

/-- A sample is written, and queued if it is of the current consent. -/
structure Added (s t : Store) (x : Sample) : Prop where
  epoch : t.epoch = s.epoch
  samples : ∀ r ∈ s.samples, r ∈ t.samples
  outbox : t.outbox = s.outbox ∨ (Current t x.id ∧
    ∃ status, t.outbox = s.outbox ++ [⟨x.id, status, 0, none, none, x.createdAt⟩])

theorem Added.refl (s : Store) (x : Sample) : Added s s x := ⟨rfl, fun _ h => h, Or.inl rfl⟩

theorem Added.airtight (h : Added s t x) (hs : Airtight s) : Airtight t := by
  have hold : ∀ e ∈ s.outbox, e.unsent → Current t e.sampleId := fun e he hu =>
    (hs e he hu).mono h.epoch fun r hr _ => h.samples r hr
  intro e he hu
  obtain hout | ⟨hcurrent, status, hout⟩ := h.outbox
  · exact hold e (hout ▸ he) hu
  · rw [hout] at he
    obtain he | he := List.mem_append.mp he
    · exact hold e he hu
    · obtain rfl := List.mem_singleton.mp he
      exact hcurrent

/-- A row that was inserted as eligible under the current consent is queued. -/
theorem added_queued {s u t : Store} (hins : Inserted py s u x s.clusterId (some s.generation) true)
    (hon : s.consent) (hq : u.queue x = some t) : Added s t x := by
  obtain ⟨hepoch, hsamples, hout⟩ := queue_spec hq
  have hall : t.epoch = s.epoch := hepoch.trans hins.epoch
  have hfields := hall
  simp only [Store.epoch, Prod.mk.injEq] at hfields
  obtain ⟨hconsent, hgeneration, hcluster, -⟩ := hfields
  have hrows : t.samples = s.samples ++ [⟨x, true, s.clusterId, some s.generation⟩] :=
    hsamples.trans hins.samples
  refine ⟨hall, fun r hr => hrows ▸ List.mem_append_left _ hr, Or.inr ⟨⟨hconsent.trans hon, ?_⟩, ?_⟩⟩
  · exact ⟨_, hrows ▸ List.mem_append_right _ (List.mem_singleton_self _), rfl, rfl,
      congrArg some hgeneration.symm, hcluster.symm⟩
  · obtain ⟨status, hout⟩ := hout
    exact ⟨status, hins.outbox ▸ hout⟩

theorem addBenchmark_spec {queued : Bool} (h : s.addBenchmark py x queued = some t) :
    Added s t x := by
  obtain ⟨⟨eligible, u⟩, hins, hq⟩ := Option.bind_eq_some_iff.mp h
  have hspec := insert_spec hins
  dsimp only at hq
  split at hq
  case isFalse =>
    cases hq
    exact ⟨hspec.epoch, fun r hr => hspec.samples ▸ List.mem_append_left _ hr, Or.inl hspec.outbox⟩
  case isTrue hboth =>
    obtain ⟨hqueued, rfl⟩ := Bool.and_eq_true_iff.mp hboth
    have htruthy := hspec.truthy rfl
    cases hon : s.consent with
    | false =>
      rw [hon, Bool.and_false] at htruthy
      cases htruthy
    | true =>
      have hif : (queued && s.consent) := by rw [hqueued, hon]; rfl
      simp only [hif, if_true] at hspec htruthy
      simp only [htruthy, if_true] at hspec
      exact added_queued hspec hon hq

/-- `add_benchmark_if_consented` writes nothing, or a sample of the consent it was told. -/
theorem addIfConsented_spec {expected : ℕ} {added : Bool}
    (h : s.addIfConsented py x expected = some (added, t)) :
    Added s t x ∧ (added → expected = s.generation) := by
  unfold Store.addIfConsented at h
  split at h
  case isTrue =>
    cases h
    exact ⟨Added.refl s x, Bool.noConfusion⟩
  case isFalse hguard =>
    obtain ⟨hon, hsame, -⟩ : s.consent ∧ s.generation = expected ∧
        (truthy s.clusterId).isNone = false := by
      simpa only [not_or, Bool.not_eq_false, ne_eq, not_not, Bool.not_eq_true] using hguard
    obtain ⟨ok, -, h⟩ := Option.bind_eq_some_iff.mp h
    split at h
    case isFalse =>
      cases h
      exact ⟨Added.refl s x, Bool.noConfusion⟩
    case isTrue =>
      obtain ⟨⟨eligible, u⟩, hins, h⟩ := Option.bind_eq_some_iff.mp h
      have hspec := insert_spec hins
      dsimp only at h
      split at h
      case isFalse =>
        cases h
        exact ⟨⟨hspec.epoch, fun r hr => hspec.samples ▸ List.mem_append_left _ hr,
          Or.inl hspec.outbox⟩, Bool.noConfusion⟩
      case isTrue heligible =>
        subst heligible
        obtain ⟨v, hq, h⟩ := Option.bind_eq_some_iff.mp h
        cases h
        exact ⟨added_queued hspec hon hq, fun _ => hsame.symm⟩

/-- A sample of an earlier generation is not added. -/
theorem addIfConsented_stale {s : Store} {expected : ℕ} (h : expected < s.generation) (x : Sample) :
    s.addIfConsented py x expected = some (false, s) := by
  unfold Store.addIfConsented
  rw [if_pos (Or.inr (Or.inl h.ne'))]

/-! ## Settings -/

theorem setConsent_spec {enabled : Bool} {given : Option String} {fresh : String}
    (h : s.setConsent py enabled given fresh = some t) :
    Forward s t ∧ (Airtight s → Airtight t) := by
  obtain ⟨clusterId, -, h⟩ := Option.bind_eq_some_iff.mp h
  cases enabled with
  | false =>
    cases h
    refine ⟨⟨Nat.le_add_right .., ?_⟩, fun _ => Airtight.of_sent (purge_sent _)⟩
    rintro (⟨hon, -⟩ | hne | ⟨sub, hsub, hne⟩)
    · simp [Store.purge, hon]
    · exact absurd rfl hne
    · exact absurd hsub hne
  | true =>
    by_cases hsame : clusterId = s.clusterId
    · subst hsame
      simp only [ne_eq, not_true_eq_false, decide_false, Bool.and_false, Bool.or_false,
        Bool.not_true, Bool.false_eq_true, if_false, if_true, Option.some.injEq] at h
      subst h
      refine ⟨⟨Nat.le_add_right .., ?_⟩, fun hs => ?_⟩
      · rintro (⟨-, hoff⟩ | hne | ⟨sub, hsub, hne⟩)
        · cases hoff
        · exact absurd rfl hne
        · exact absurd hsub hne
      · cases hon : s.consent with
        | false => exact Airtight.of_sent (hs.sent hon)
        | true =>
          have hepoch : (⟨s.samples, s.outbox, true, s.generation + 0, s.clusterId, s.contributor,
              s.paired, s.pairedSub⟩ : Store).epoch = s.epoch := by
            simp only [Store.epoch, hon, Nat.add_zero]
          intro e he hu
          exact (hs e he hu).mono hepoch fun r hr _ => hr
    · simp only [ne_eq, hsame, not_false_eq_true, decide_true, Bool.and_self, Bool.or_true,
        if_true, Option.some.injEq] at h
      subst h
      exact ⟨Forward.of_lt (Nat.lt_succ_self _), fun _ => Airtight.of_sent (purge_sent _)⟩

theorem bind_spec {sub : String} (h : s.bind sub = some t) :
    Forward s t ∧ (Airtight s → Airtight t) := by
  obtain ⟨_, h⟩ := Option.ite_none_left_eq_some.mp h
  split at h
  case h_1 previous hprevious =>
    split at h
    case isTrue =>
      cases h
      exact ⟨Forward.of_lt (Nat.lt_succ_self _), fun _ => Airtight.of_sent (purge_sent s)⟩
    case isFalse =>
      cases h
      exact ⟨Forward.of_epoch rfl, id⟩
  case h_2 hnone =>
    cases h
    refine ⟨⟨le_refl _, ?_⟩, fun hs e he hu => ?_⟩
    · rintro (⟨hon, hoff⟩ | hne | ⟨sub', hsub, -⟩)
      · exact absurd (hon.symm.trans hoff) Bool.true_eq_false.mp
      · exact absurd rfl hne
      · rw [hnone] at hsub
        cases hsub
    · obtain ⟨hconsent, hrow⟩ := hs e he hu
      exact ⟨hconsent, hrow⟩

/-! ## The outbox -/

/-- An update of the outbox that sends back no row of another consent. -/
theorem updateOutbox_airtight {s : Store} {p : Entry → Bool} {f : Entry → Entry}
    (hid : ∀ e, (f e).sampleId = e.sampleId)
    (hp : ∀ e ∈ s.outbox, p e → (f e).unsent → e.unsent ∨
      Current s e.sampleId) (hs : Airtight s) : Airtight (s.updateOutbox p f) := by
  intro e he hu
  obtain ⟨e, hmem, rfl⟩ := List.mem_map.mp he
  have hcurrent : Current s e.sampleId := by
    split at hu
    case isTrue hpe => exact (hp e hmem hpe hu).elim (hs e hmem) id
    case isFalse => exact hs e hmem hu
  have hname : (if p e then f e else e).sampleId = e.sampleId := by
    split
    · exact hid e
    · rfl
  rw [hname]
  exact hcurrent.mono rfl fun _ hr _ => hr

theorem fail_sampleId (error : String) (now : ℚ) (e : Entry) :
    (Store.Entry.fail error now e).sampleId = e.sampleId := rfl

theorem fail_unsent (error : String) (now : ℚ) (e : Entry) :
    (Store.Entry.fail error now e).unsent := rfl

theorem markFailed_epoch (error : String) (now : ℚ) : ∀ (ids : List String) (s : Store),
    (Store.markFailed error now ids s).epoch = s.epoch ∧
      (Store.markFailed error now ids s).samples = s.samples
  | [], _ => ⟨rfl, rfl⟩
  | _ :: ids, s => markFailed_epoch error now ids (s.updateOutbox _ _)

theorem markFailed_airtight (error : String) (now : ℚ) : ∀ (ids : List String) {s : Store},
    clean s (.markFailed ids error now) → Airtight s → Airtight (Store.markFailed error now ids s)
  | [], _, _, hs => hs
  | id :: ids, s, hc, hs => by
    refine markFailed_airtight error now ids ?_
      (updateOutbox_airtight (fail_sampleId error now) ?_ hs)
    · intro e he hmem
      obtain ⟨e, hold, rfl⟩ := List.mem_map.mp he
      split
      · exact Or.inl (fail_unsent error now e)
      · rename_i hne
        rw [if_neg hne] at hmem
        exact (hc e hold (List.mem_cons_of_mem _ hmem)).imp_right fun h =>
          h.mono rfl fun _ hr _ => hr
    · intro e he hid _
      exact hc e he (by rw [of_decide_eq_true hid]; exact List.mem_cons_self)

/-- Every row that it names is unsent afterwards. -/
theorem markFailed_unsent (error : String) (now : ℚ) : ∀ (ids : List String) {s : Store} {e : Entry},
    e ∈ s.outbox → e.unsent ∨ e.sampleId ∈ ids →
    ∃ e' ∈ (Store.markFailed error now ids s).outbox, e'.sampleId = e.sampleId ∧ e'.unsent
  | [], _, e, he, h => ⟨e, he, rfl, h.resolve_right List.not_mem_nil⟩
  | id :: ids, s, e, he, h => by
    have hmem : (if decide (e.sampleId = id) then Store.Entry.fail error now e else e) ∈
        (s.updateOutbox (fun e => e.sampleId = id) (Store.Entry.fail error now)).outbox :=
      List.mem_map_of_mem he
    by_cases hid : e.sampleId = id
    · rw [if_pos (decide_eq_true hid)] at hmem
      obtain ⟨e', he', hsample, hu⟩ :=
        markFailed_unsent error now ids hmem (Or.inl (fail_unsent error now e))
      exact ⟨e', he', hsample, hu⟩
    · rw [if_neg (by rw [decide_eq_true_iff]; exact hid)] at hmem
      exact markFailed_unsent error now ids hmem (h.imp_right fun hin =>
        (List.mem_cons.mp hin).resolve_left hid)

theorem delete_airtight {s : Store} (p : Row → Bool) (hs : Airtight s) : Airtight (s.delete p) := by
  intro e he hu
  obtain ⟨he, hkept⟩ := List.mem_filter.mp he
  rw [Bool.not_eq_true', List.any_eq_false] at hkept
  refine (hs e he hu).mono rfl fun r hr hid => List.mem_filter.mpr ⟨hr, ?_⟩
  have hno := hkept r hr
  rw [decide_eq_true hid, Bool.and_true] at hno
  exact (Bool.not_eq_true' _).mpr (Bool.eq_false_iff.mpr hno)

/-! ## Opening -/

theorem migrate_spec (s : Store) (sameContract : Bool) :
    Forward s (s.migrate py sameContract) ∧
      (Airtight s → Airtight (s.migrate py sameContract)) := by
  have hkept : ∀ sub, s.contributor = some sub →
      (if s.paired then s.contributor.or (truthy s.pairedSub) else s.contributor) = some sub := by
    intro sub hsub
    rw [hsub]
    split <;> rfl
  cases sameContract with
  | false =>
    refine ⟨⟨Nat.le_add_right .., ?_⟩, fun _ => Airtight.of_sent fun e he => ?_⟩
    · rintro (⟨hon, -⟩ | hne | ⟨sub, hsub, hne⟩)
      · simp [Store.migrate, Store.purge, hon]
      · exact absurd rfl hne
      · exact absurd (hkept sub hsub) hne
    · exact purge_sent _ e (List.mem_filter.mp he).1
  | true =>
    refine ⟨⟨le_refl _, ?_⟩, fun hs e he hu => ?_⟩
    · rintro (⟨hon, hoff⟩ | hne | ⟨sub, hsub, hne⟩)
      · exact absurd (hon.symm.trans hoff) Bool.true_eq_false.mp
      · exact absurd rfl hne
      · exact absurd (hkept sub hsub) hne
    · obtain ⟨he, hvalid⟩ := List.mem_filter.mp he
      obtain ⟨hconsent, r, hr, hid, hrest⟩ := hs e he hu
      have hno : Store.invalid py r = false := by
        rw [hu, Bool.true_and, Bool.not_eq_true', List.any_eq_false] at hvalid
        have := hvalid r hr
        rw [decide_eq_true hid, Bool.and_true] at this
        exact Bool.eq_false_iff.mpr this
      refine ⟨hconsent, r, List.mem_map.mpr ⟨r, hr, ?_⟩, hid, hrest⟩
      rw [hno]
      rfl

/-! ## Steps and runs -/

/-- Every operation keeps `Airtight`, if it is clean, and leads forward. -/
theorem step_spec {op : Op} (h : step py s op = some t) :
    Forward s t ∧ (clean s op → Airtight s → Airtight t) := by
  cases op with
  | addBenchmark x queue =>
    have hadd := addBenchmark_spec h
    exact ⟨Forward.of_epoch hadd.epoch, fun _ => hadd.airtight⟩
  | addBenchmarkIfConsented x expected =>
    obtain ⟨⟨added, u⟩, hu, rfl⟩ := Option.map_eq_some_iff.mp h
    have hadd := (addIfConsented_spec hu).1
    exact ⟨Forward.of_epoch hadd.epoch, fun _ => hadd.airtight⟩
  | addCoordinated x queue pointAccepted =>
    cases pointAccepted with
    | false => cases h
    | true =>
      have hadd := addBenchmark_spec h
      exact ⟨Forward.of_epoch hadd.epoch, fun _ => hadd.airtight⟩
  | addCoordinatedIfConsented x expected pointAccepted =>
    have hadd : Added s t x := by
      simp only [step] at h
      split at h
      case h_1 hu =>
        obtain ⟨_, rfl⟩ := guard_some h
        exact (addIfConsented_spec hu).1
      case h_2 hu =>
        cases h
        exact (addIfConsented_spec hu).1
      case h_3 => cases h
    exact ⟨Forward.of_epoch hadd.epoch, fun _ => hadd.airtight⟩
  | setConsent enabled clusterId fresh =>
    have hset := setConsent_spec h
    exact ⟨hset.1, fun _ => hset.2⟩
  | revoke =>
    cases h
    exact ⟨Forward.of_lt (Nat.lt_succ_self _), fun _ _ => Airtight.of_sent (purge_sent _)⟩
  | bind sub =>
    have hbind := bind_spec h
    exact ⟨hbind.1, fun _ => hbind.2⟩
  | retry =>
    cases h
    refine ⟨Forward.of_epoch rfl, fun _ => updateOutbox_airtight (fun _ => rfl) ?_⟩
    intro e _ hp _
    cases hs : e.status <;> simp_all [Entry.unsent]
  | promote =>
    cases h
    refine ⟨Forward.of_epoch rfl, fun _ => updateOutbox_airtight (fun _ => rfl) ?_⟩
    intro e _ hp _
    exact Or.inl (decide_eq_true (by rw [of_decide_eq_true hp]; exact Status.noConfusion))
  | markSynced ids =>
    cases h
    exact ⟨Forward.of_epoch rfl, fun _ => updateOutbox_airtight (fun _ => rfl)
      fun e _ _ hu => by cases hu⟩
  | markFailed ids error now =>
    cases h
    exact ⟨Forward.of_epoch (markFailed_epoch error now ids s).1,
      markFailed_airtight error now ids⟩
  | deleteBenchmark id | deleteModel repository =>
    cases h
    exact ⟨Forward.of_epoch rfl, fun _ => delete_airtight _⟩
  | setPairing paired sub =>
    cases h
    exact ⟨Forward.of_epoch rfl, fun _ hs e he hu => (hs e he hu).mono rfl fun _ hr _ => hr⟩
  | «open» sameContract =>
    cases h
    have hmigrate := @migrate_spec py s sameContract
    exact ⟨hmigrate.1, fun _ => hmigrate.2⟩

/-- A step from an airtight outbox leads to one exactly if it is clean. -/
theorem airtight_step {op : Op} (hs : Airtight s) (h : step py s op = some t) :
    Airtight t ↔ clean s op := by
  refine ⟨fun ht => ?_, fun hc => (step_spec h).2 hc hs⟩
  cases op with
  | markFailed ids error now =>
    cases h
    intro e he hid
    obtain ⟨e', he', hsample, hu⟩ := markFailed_unsent error now ids he (Or.inr hid)
    obtain ⟨hepoch, hrows⟩ := markFailed_epoch error now ids s
    exact Or.inr (hsample ▸ (ht e' he' hu).mono hepoch.symm fun r hr _ => hrows ▸ hr)
  | _ => trivial

theorem run_le (h : Reach (step py) Free s t) : s.generation ≤ t.generation :=
  h.invariant (P := fun u => s.generation ≤ u.generation) le_rfl fun _ _ _ ha _ hstep =>
    ha.trans (step_spec hstep).1.le

/-- The outbox is airtight in every run of clean steps, and a step that is not clean ends that. The
generation does not fall in any run, and what was measured under a snapshot is not queued once one
of its terms has changed. -/
theorem consent_airtight :
    (∀ s, Reach (step py) clean opened s → Airtight s) ∧
    (∀ s t op, Airtight s → step py s op = some t → (Airtight t ↔ clean s op)) ∧
    (∀ s t, Reach (step py) Free opened s → Reach (step py) Free s t →
      s.generation ≤ t.generation) ∧
    ∀ s a b t op x pointAccepted, Reach (step py) Free opened s → Reach (step py) Free s a →
      step py a op = some b → Boundary a b → Reach (step py) Free b t →
      t.addIfConsented py x s.snapshot.generation = some (false, t) ∧
      step py t (.addCoordinatedIfConsented x s.snapshot.generation pointAccepted) = some t := by
  refine ⟨fun s hs => ?_, fun s t op hs h => airtight_step hs h, fun s t _ h => run_le h, ?_⟩
  · exact hs.invariant (fun _ he => absurd he List.not_mem_nil) fun a op b ha hc hstep =>
      (airtight_step ha hstep).mpr hc
  · intro s a b t op x pointAccepted _ hsa hab hboundary hbt
    have hlt : s.snapshot.generation < t.generation := calc
      s.generation ≤ a.generation := run_le hsa
      _ < b.generation := (step_spec hab).1.lt hboundary
      _ ≤ t.generation := run_le hbt
    have hstale := @addIfConsented_stale py _ _ hlt x
    exact ⟨hstale, by simp only [step, hstale]⟩

/-! ## Two uploads of one row -/

/-- An identifier of a cluster. -/
def cluster : String := "7d444840-9dc0-11d1-b245-5ffdce74fad2"

/-- What the runs below ask of Python: no text has blanks around it, and none is a number. -/
def plain : Python where
  strip := id
  isDigits := fun _ => false
  int := fun _ => none
  uuid := fun text => if text = cluster then some text else none

def measured (id : String) (createdAt : ℚ) : Sample :=
  ⟨id, createdAt, true, some "org/model", 100, some 10, .absent, .absent⟩

/-- A paired device shares a measurement. -/
def share : List Op :=
  [.setPairing true (some "account"), .setConsent true none cluster,
    .addBenchmarkIfConsented (measured "first" 1) 1]

def shared : Store :=
  { samples := [⟨measured "first" 1, true, some cluster, some 1⟩]
    outbox := [⟨"first", .pending, 0, none, none, 1⟩]
    consent := true
    generation := 1
    clusterId := some cluster
    contributor := none
    paired := true
    pairedSub := some "account" }

def withdrawn : Store := { shared with outbox := [], consent := false, generation := 2 }

/-- Sharing is taken up again, with another measurement. -/
def again : List Op :=
  [.setConsent true none cluster, .addBenchmarkIfConsented (measured "second" 2) 3]

def rejoined : Store :=
  { shared with
    samples := shared.samples ++ [⟨measured "second" 2, true, some cluster, some 3⟩]
    outbox := [⟨"second", .pending, 0, none, none, 2⟩]
    generation := 3 }

theorem replay_share : replay (step plain) clean opened share = some shared := by decide +kernel

theorem replay_again : replay (step plain) clean withdrawn again = some rejoined := by
  decide +kernel

theorem step_withdrawn : step plain shared (.setConsent false none "") = some withdrawn := by
  decide +kernel

theorem consent_airtight_rejoined :
    Airtight rejoined ∧ rejoined.outbox ≠ [] ∧ shared.generation ≤ rejoined.generation ∧
    (Airtight withdrawn ↔ clean shared (.setConsent false none "")) ∧
    rejoined.addIfConsented plain (measured "late" 3) shared.snapshot.generation =
      some (false, rejoined) := by
  have hshared := reach_of_replay replay_share
  have hagain := reach_of_replay replay_again
  have hboundary : Boundary shared withdrawn := Or.inl ⟨rfl, rfl⟩
  have hrun : Reach (step plain) clean shared rejoined :=
    Reach.head (C := clean) (e := .setConsent false none "") trivial step_withdrawn hagain
  have hall := @consent_airtight plain
  exact ⟨hall.1 _ (hshared.trans hrun), List.cons_ne_nil _ _,
    hall.2.2.1 _ _ hshared.free hrun.free,
    hall.2.1 _ _ _ (hall.1 _ hshared) step_withdrawn,
    (hall.2.2.2 _ _ _ _ _ (measured "late" 3) true hshared.free Reach.refl step_withdrawn hboundary
      hagain.free).1⟩

/-- One upload of the row is answered, the consent is withdrawn, and another upload of it fails. -/
def fails : List Op :=
  [.markSynced ["first"], .setConsent false none "", .markFailed ["first"] "timed out" 2]

def leaked : Store :=
  { withdrawn with outbox := [⟨"first", .failed, 1, some 17, some "timed out", 1⟩] }

/-- The row was on its way, is unsent without consent, and is due again. -/
theorem sent_then_failed :
    replay (step plain) Free opened share = some shared ∧
    "first" ∈ shared.outboxEntries plain 50 2 ∧
    replay (step plain) Free shared fails = some leaked ∧ ¬ Airtight leaked ∧
    leaked.consent = false ∧ "first" ∈ leaked.outboxEntries plain 50 17 := by
  refine ⟨by decide +kernel, by decide +kernel, by decide +kernel, fun h => ?_, rfl,
    by decide +kernel⟩
  exact absurd (h _ (List.mem_singleton_self _) rfl).consent Bool.false_ne_true

end SparkDeck.Consent
