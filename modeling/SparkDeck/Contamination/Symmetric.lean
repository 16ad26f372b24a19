import SparkDeck.Contamination.Observe

/-!
# Contamination is complete and symmetric

`Meets s a b`: the observations `a` and `b` are both active, and the scopes that they are active
under intersect.

* `Complete`, kept by every operation: whoever meets another is marked.
* `marked_step`: an operation marks those that meet another after it, or that it disturbs otherwise
  (`Disturbs`: a startup benchmark begins beside a request of the manager, or a benchmark run does).
* `contamination`: so after any run exactly those are marked that have met another or were
  disturbed, and no mark is ever cleared.
-/

namespace SparkDeck.Contamination

open Transition Function

def Marked (s : State) (id : String) : Prop := (s.objects id).any Observation.contaminated

def scopesOf (objects : String → Option Observation) (id : String) : Option (Finset String) :=
  (objects id).map Observation.scopes

structure Meets (s : State) (a b : String) : Prop where
  ne : a ≠ b
  left : a ∈ s.active
  right : b ∈ s.active
  scopes : ∃ x y, scopesOf s.objects a = some x ∧ scopesOf s.objects b = some y ∧ x ∩ y ≠ ∅

theorem Meets.symm {s : State} {a b : String} (h : Meets s a b) : Meets s b a := by
  obtain ⟨x, y, hx, hy, hxy⟩ := h.scopes
  exact ⟨h.ne.symm, h.right, h.left, y, x, hy, hx, by rwa [Finset.inter_comm]⟩

/-- What marks an observation without another one. -/
def Disturbs (s : State) (op : Op) (a : String) : Prop :=
  match op with
  | .activate id scopes _ requests => a = id ∧ ∃ o, s.objects id = some o ∧
      o.startupBenchmark ∧ o.managerScopeSequences.isNone ∧
      managerRequestsOverlap requests (scopes.getD o.scopes)
  | .runBenchmark => a ∈ s.active ∧ (s.objects a).isSome
  | _ => False

/-! ## The marks of a loop -/

section Marks

variable {objects : String → Option Observation} {id k : String} {scopes : Finset String}

def marked (objects : String → Option Observation) (id : String) : Bool :=
  (objects id).any Observation.contaminated

theorem scopesOf_mark : scopesOf (mark id objects) k = scopesOf objects k := by
  unfold scopesOf mark
  by_cases hk : k = id
  · rw [hk, update_self, Option.map_map]
    rfl
  · rw [update_of_ne hk]

theorem marked_mark :
    marked (mark id objects) k ↔
      marked objects k ∨ k = id ∧ (objects id).isSome := by
  unfold marked mark
  by_cases hk : k = id
  · rw [hk, update_self]
    cases objects id with
    | none => simp
    | some o => simp
  · rw [update_of_ne hk]
    simp [hk]

theorem isSome_of_scopesOf {objects' : String → Option Observation}
    (h : scopesOf objects' k = scopesOf objects k) : (objects' k).isSome = (objects k).isSome := by
  have hsome := congrArg Option.isSome h
  unfold scopesOf at hsome
  rwa [Option.isSome_map, Option.isSome_map] at hsome

theorem isSome_mark : (mark id objects k).isSome = (objects k).isSome :=
  isSome_of_scopesOf scopesOf_mark

theorem intersects_iff :
    intersects objects scopes k ↔ ∃ y, scopesOf objects k = some y ∧ scopes ∩ y ≠ ∅ := by
  unfold intersects scopesOf
  cases objects k with
  | none => simp
  | some o => simp

theorem intersects_congr {objects' : String → Option Observation}
    (h : scopesOf objects' k = scopesOf objects k) :
    intersects objects' scopes k = intersects objects scopes k := by
  rw [Bool.eq_iff_iff, intersects_iff, intersects_iff, h]

theorem clash_cons (a : String) (active : List String) :
    clash id scopes (a :: active) objects = clash id scopes active
      (if a = id then objects
        else if intersects objects scopes a then mark a (mark id objects) else objects) := rfl

/-- One turn of the loop leaves the scopes, and marks two that intersect. -/
theorem turn_spec (a : String) :
    let objects' := if a = id then objects
      else if intersects objects scopes a then mark a (mark id objects) else objects
    (∀ k, scopesOf objects' k = scopesOf objects k) ∧
    ∀ k, marked objects' k ↔ marked objects k ∨ a ≠ id ∧
      intersects objects scopes a ∧ (k = a ∨ k = id ∧ (objects id).isSome) := by
  by_cases ha : a = id
  · rw [if_pos ha]
    exact ⟨fun k => rfl, fun k => (or_iff_left fun h => h.1 ha).symm⟩
  rw [if_neg ha]
  cases hi : intersects objects scopes a with
  | false => exact ⟨fun k => rfl, fun k => (or_iff_left fun h => Bool.false_ne_true h.2.1).symm⟩
  | true =>
    rw [if_pos rfl]
    refine ⟨fun k => scopesOf_mark.trans scopesOf_mark, fun k => ?_⟩
    have hsome : (objects a).isSome := by
      obtain ⟨y, hy, -⟩ := intersects_iff.mp hi
      obtain ⟨o, ho, -⟩ := Option.map_eq_some_iff.mp hy
      rw [ho]
      rfl
    rw [marked_mark, marked_mark, isSome_mark, hsome]
    tauto

theorem clash_spec (active : List String) :
    (∀ k, scopesOf (clash id scopes active objects) k = scopesOf objects k) ∧
    ∀ k, marked (clash id scopes active objects) k ↔ marked objects k ∨
      ∃ a ∈ active, a ≠ id ∧ intersects objects scopes a ∧
        (k = a ∨ k = id ∧ (objects id).isSome) := by
  induction active generalizing objects with
  | nil => exact ⟨fun k => rfl, fun k => by simp [clash]⟩
  | cons a active ih =>
    have hturn := @turn_spec objects id scopes a
    rw [clash_cons]
    revert hturn
    generalize (if a = id then objects
      else if intersects objects scopes a then mark a (mark id objects) else objects) = objects'
    rintro ⟨hscopes, hmarked⟩
    obtain ⟨ihscopes, ihmarked⟩ := @ih objects'
    refine ⟨fun k => (ihscopes k).trans (hscopes k), fun k => (ihmarked k).trans ?_⟩
    have hid : (objects' id).isSome = (objects id).isSome := isSome_of_scopesOf (hscopes id)
    have hsame : ∀ b, intersects objects' scopes b = intersects objects scopes b := fun b =>
      intersects_congr (hscopes b)
    simp only [hmarked, hid, hsame, List.mem_cons, exists_eq_or_imp, or_assoc]

end Marks

/-! ## The operations -/

section Operations

variable {s t : State} {id : String} {o : Observation}

theorem beginStartup_scopes (sequences : String → ℕ) (requests : List ManagerRequest)
    (o : Observation) : (beginStartup sequences requests o).scopes = o.scopes := by
  unfold beginStartup
  split <;> rfl

theorem beginStartup_contaminated (sequences : String → ℕ) (requests : List ManagerRequest)
    (o : Observation) :
    (beginStartup sequences requests o).contaminated ↔ o.contaminated ∨
      o.startupBenchmark ∧ o.managerScopeSequences.isNone ∧
        managerRequestsOverlap requests o.scopes := by
  unfold beginStartup
  split
  case isTrue h =>
    rw [Bool.and_eq_true] at h
    simp only [Bool.or_eq_true, h.1, h.2, true_and]
  case isFalse h =>
    refine (or_iff_left fun hn => h ?_).symm
    rw [hn.1, hn.2.1]
    rfl

/-- Where an observation is activated: it and those it intersects are marked. -/
theorem activate_spec {scopes : Option (Finset String)} {sequences : String → ℕ}
    {requests : List ManagerRequest}
    (h : s.activate id scopes sequences requests = some t) :
    ∃ o, s.objects id = some o ∧
      (∀ k, k ∈ t.active ↔ k ∈ s.active ∨ k = id) ∧
      scopesOf t.objects id = some (scopes.getD o.scopes) ∧
      (∀ k, k ≠ id → scopesOf t.objects k = scopesOf s.objects k) ∧
      ∀ k, Marked t k ↔ Marked s k ∨ Disturbs s (.activate id scopes sequences requests) k ∨
        ∃ a ∈ s.active, a ≠ id ∧ intersects s.objects (scopes.getD o.scopes) a ∧
          (k = a ∨ k = id) := by
  obtain ⟨o, ho, rfl⟩ := Option.map_eq_some_iff.mp h
  have hscopes := beginStartup_scopes sequences requests { o with scopes := scopes.getD o.scopes }
  have hmark := beginStartup_contaminated sequences requests
    { o with scopes := scopes.getD o.scopes }
  revert hscopes hmark
  dsimp only
  generalize beginStartup sequences requests { o with scopes := scopes.getD o.scopes } = o'
  intro hscopes hmark
  rw [hscopes]
  obtain ⟨hkept, hclash⟩ := @clash_spec (update s.objects id (some o')) id
    (scopes.getD o.scopes) s.active
  refine ⟨o, ho, fun k => ?_, ?_, fun k hk => ?_, fun k => (hclash k).trans ?_⟩
  · split
    case isTrue hid =>
      constructor
      · exact Or.inl
      · rintro (hk | rfl)
        · exact hk
        · exact hid
    case isFalse => rw [List.mem_append, List.mem_singleton]
  · rw [hkept]
    unfold scopesOf
    rw [update_self, Option.map_some, hscopes]
  · rw [hkept]
    unfold scopesOf
    rw [update_of_ne hk]
  · have hothers : ∀ a, a ≠ id →
        intersects (update s.objects id (some o')) (scopes.getD o.scopes) a
          = intersects s.objects (scopes.getD o.scopes) a := fun a ha =>
      intersects_congr (by unfold scopesOf; rw [update_of_ne ha])
    have hsome : (update s.objects id (some o') id).isSome := by
      rw [update_self]
      rfl
    rw [← or_assoc]
    refine or_congr ?_ (exists_congr fun a => and_congr_right fun _ => and_congr_right fun ha => ?_)
    · unfold marked Marked Disturbs
      by_cases hk : k = id
      · subst hk
        rw [update_self, ho, Option.any_some, Option.any_some, hmark]
        simp only [ho, Option.some.injEq, exists_eq_left', true_and]
      · rw [update_of_ne hk]
        exact (or_iff_left fun h => hk h.1).symm
    · rw [hothers a ha, hsome]
      simp only [and_true]

/-- The observations of the table exist, and those that meet are marked. -/
structure Complete (s : State) : Prop where
  started : ∀ a ∈ s.active, (s.objects a).isSome
  marked : ∀ a b, Meets s a b → Marked s a

/-- Nothing new is active, and nothing active has other scopes. -/
structure Quiet (s t : State) : Prop where
  active : ∀ a ∈ t.active, a ∈ s.active
  scopes : ∀ a ∈ s.active, scopesOf t.objects a = scopesOf s.objects a
  marked : ∀ a, Marked s a → Marked t a

theorem Quiet.meets (h : Quiet s t) {a b : String} (hab : Meets t a b) : Meets s a b := by
  obtain ⟨x, y, hx, hy, hxy⟩ := hab.scopes
  have ha := h.active a hab.left
  have hb := h.active b hab.right
  exact ⟨hab.ne, ha, hb, x, y, h.scopes a ha ▸ hx, h.scopes b hb ▸ hy, hxy⟩

theorem Quiet.complete (h : Quiet s t) (hs : Complete s) : Complete t := by
  refine ⟨fun a ha => ?_, fun a b hab => h.marked a (hs.marked a b (h.meets hab))⟩
  have hmem := h.active a ha
  rw [isSome_of_scopesOf (h.scopes a hmem)]
  exact hs.started a hmem

variable {scopes : Option (Finset String)} {sequences : String → ℕ}
  {requests : List ManagerRequest}

theorem activate_complete (h : s.activate id scopes sequences requests = some t)
    (hs : Complete s) : Complete t := by
  obtain ⟨o, ho, hactive, hid, hothers, hmarked⟩ := activate_spec h
  refine ⟨fun a ha => ?_, fun a b hab => (hmarked a).mpr ?_⟩
  · by_cases haid : a = id
    · subst haid
      obtain ⟨o', ho', -⟩ := Option.map_eq_some_iff.mp hid
      rw [ho']
      rfl
    · rw [isSome_of_scopesOf (hothers a haid)]
      exact hs.started a (((hactive a).mp ha).resolve_right haid)
  · obtain ⟨x, y, hx, hy, hxy⟩ := hab.scopes
    by_cases haid : a = id
    · subst haid
      have hb := ((hactive b).mp hab.right).resolve_right hab.ne.symm
      rw [hid] at hx
      cases hx
      refine Or.inr (Or.inr ⟨b, hb, hab.ne.symm, intersects_iff.mpr ⟨y, ?_, hxy⟩, Or.inr rfl⟩)
      rwa [hothers b hab.ne.symm] at hy
    · have ha := ((hactive a).mp hab.left).resolve_right haid
      rw [hothers a haid] at hx
      by_cases hbid : b = id
      · subst hbid
        rw [hid] at hy
        cases hy
        rw [Finset.inter_comm] at hxy
        exact Or.inr (Or.inr ⟨a, ha, haid, intersects_iff.mpr ⟨x, hx, hxy⟩, Or.inl rfl⟩)
      · rw [hothers b hbid] at hy
        have hb := ((hactive b).mp hab.right).resolve_right hbid
        exact Or.inl (hs.marked a b ⟨hab.ne, ha, hb, x, y, hx, hy, hxy⟩)

/-- Whom an activation marks meets another after it. -/
theorem activate_marks (h : s.activate id scopes sequences requests = some t) {k : String}
    (hk : Marked t k) :
    Marked s k ∨ Disturbs s (.activate id scopes sequences requests) k ∨ ∃ b, Meets t k b := by
  obtain ⟨o, ho, hactive, hid, hothers, hmarked⟩ := activate_spec h
  obtain hold | hown | ⟨a, ha, hne, hintersects, hwho⟩ := (hmarked k).mp hk
  · exact Or.inl hold
  · exact Or.inr (Or.inl hown)
  · obtain ⟨y, hy, hxy⟩ := intersects_iff.mp hintersects
    have hmeets : Meets t id a := ⟨hne.symm, (hactive id).mpr (Or.inr rfl),
      (hactive a).mpr (Or.inl ha), _, y, hid, (hothers a hne).trans hy, hxy⟩
    obtain rfl | rfl := hwho
    · exact Or.inr (Or.inr ⟨id, hmeets.symm⟩)
    · exact Or.inr (Or.inr ⟨a, hmeets⟩)

theorem activate_keeps (h : s.activate id scopes sequences requests = some t) {k : String}
    (hk : Marked s k ∨ Disturbs s (.activate id scopes sequences requests) k) : Marked t k := by
  obtain ⟨o, ho, hactive, hid, hothers, hmarked⟩ := activate_spec h
  exact (hmarked k).mpr (hk.imp_right Or.inl)

/-! ## Steps and runs -/

theorem start_quiet (o : Observation) (hs : Complete s) (h : s.objects id = none) :
    Quiet s { s with objects := update s.objects id (some o) } := by
  have hne : ∀ a, (s.objects a).isSome → a ≠ id := by
    rintro a ha rfl
    rw [h] at ha
    cases ha
  refine ⟨fun a ha => ha, fun a ha => ?_, fun a ha => ?_⟩
  · unfold scopesOf
    dsimp only
    rw [update_of_ne (hne a (hs.started a ha))]
  · unfold Marked at ha ⊢
    dsimp only
    rw [update_of_ne]
    · exact ha
    · rintro rfl
      rw [h] at ha
      cases ha

theorem start_marked (ho : o.contaminated = false) {k : String}
    (hk : Marked { s with objects := update s.objects id (some o) } k) : Marked s k := by
  unfold Marked at hk ⊢
  dsimp only at hk
  by_cases hid : k = id
  · rw [hid, update_self, Option.any_some, ho] at hk
    cases hk
  · rwa [update_of_ne hid] at hk

theorem start_cases {enabled deferred : Bool} {generation : ℕ}
    (h : s.start id enabled generation scopes deferred = some t) :
    s.objects id = none ∧ ∃ o : Observation, o.contaminated = false ∧ o.startupBenchmark = false ∧
      (t = { s with objects := update s.objects id (some o) } ∨
        State.activate { s with objects := update s.objects id (some o) } id none
          (fun _ => 0) [] = some t) := by
  unfold State.start at h
  cases hid : s.objects id with
  | some o =>
    rw [hid] at h
    cases h
  | none =>
    rw [hid] at h
    dsimp only at h
    split at h
    case isTrue => exact ⟨rfl, _, rfl, rfl, Or.inl (Option.some.inj h).symm⟩
    case isFalse => exact ⟨rfl, _, rfl, rfl, Or.inr h⟩

theorem startupBenchmark_same {generation expected : ℕ}
    (h : s.startupBenchmark id generation expected = some t) :
    t.active = s.active ∧ (∀ a, scopesOf t.objects a = scopesOf s.objects a) ∧
      ∀ a, Marked t a ↔ Marked s a := by
  obtain ⟨o, ho, rfl⟩ := Option.map_eq_some_iff.mp h
  refine ⟨rfl, fun a => ?_, fun a => ?_⟩
  · unfold scopesOf
    dsimp only
    by_cases ha : a = id
    · rw [ha, update_self, ho]
      rfl
    · rw [update_of_ne ha]
  · unfold Marked
    dsimp only
    by_cases ha : a = id
    · rw [ha, update_self, ho]
      exact Iff.rfl
    · rw [update_of_ne ha]

/-- The marks that a benchmark run sets. -/
theorem runBenchmark_spec (active : List String) (objects : String → Option Observation) :
    (∀ k, scopesOf (active.foldl (fun objects id => mark id objects) objects) k
      = scopesOf objects k) ∧
    ∀ k, marked (active.foldl (fun objects id => mark id objects) objects) k = true ↔
      marked objects k ∨ k ∈ active ∧ (objects k).isSome := by
  induction active generalizing objects with
  | nil => exact ⟨fun k => rfl, fun k => by simp⟩
  | cons a active ih =>
    obtain ⟨hscopes, hmarked⟩ := ih (mark a objects)
    refine ⟨fun k => (hscopes k).trans scopesOf_mark, fun k => (hmarked k).trans ?_⟩
    rw [marked_mark, isSome_mark, List.mem_cons]
    constructor
    · rintro ((hk | ⟨rfl, hsome⟩) | ⟨hk, hsome⟩)
      · exact Or.inl hk
      · exact Or.inr ⟨Or.inl rfl, hsome⟩
      · exact Or.inr ⟨Or.inr hk, hsome⟩
    · rintro (hk | ⟨rfl | hk, hsome⟩)
      · exact Or.inl (Or.inl hk)
      · exact Or.inl (Or.inr ⟨rfl, hsome⟩)
      · exact Or.inr ⟨hk, hsome⟩

/-- What a step does to the marks, and that it keeps them complete. -/
structure Advances (s : State) (op : Op) (t : State) : Prop where
  complete : Complete t
  keeps : ∀ k, Marked s k ∨ Disturbs s op k → Marked t k
  marks : ∀ k, Marked t k → Marked s k ∨ Disturbs s op k ∨ ∃ b, Meets t k b

theorem step_advances {op : Op} (hs : Complete s) (h : step s op = some t) : Advances s op t := by
  cases op with
  | activate id scopes sequences requests =>
    exact ⟨activate_complete h hs, fun k hk => activate_keeps h hk, fun k hk => activate_marks h hk⟩
  | observationEnd id =>
    cases h
    have hquiet : Quiet s (s.observationEnd id) :=
      ⟨fun a ha => (List.mem_filter.mp ha).1, fun a _ => rfl, fun a ha => ha⟩
    exact ⟨hquiet.complete hs, fun k hk => hk.elim (hquiet.marked k) False.elim,
      fun k hk => Or.inl hk⟩
  | startupBenchmark id generation expected =>
    obtain ⟨hactive, hscopes, hmarked⟩ := startupBenchmark_same h
    have hquiet : Quiet s t :=
      ⟨fun a ha => hactive ▸ ha, fun a _ => hscopes a, fun a => (hmarked a).mpr⟩
    exact ⟨hquiet.complete hs, fun k hk => hk.elim (hmarked k).mpr False.elim,
      fun k hk => Or.inl ((hmarked k).mp hk)⟩
  | runBenchmark =>
    cases h
    obtain ⟨hscopes, hmarked⟩ := runBenchmark_spec s.active s.objects
    have hquiet : Quiet s s.runBenchmark :=
      ⟨fun a ha => ha, fun a _ => hscopes a, fun a ha => (hmarked a).mpr (Or.inl ha)⟩
    refine ⟨hquiet.complete hs, fun k hk => (hmarked k).mpr hk, fun k hk => ?_⟩
    exact ((hmarked k).mp hk).imp_right Or.inl
  | start id enabled generation scopes deferred =>
    obtain ⟨hid, o, hmark, hstartup, rfl | hactivate⟩ := start_cases h
    · have hquiet := start_quiet o hs hid
      exact ⟨hquiet.complete hs, fun k hk => hk.elim (hquiet.marked k) False.elim,
        fun k hk => Or.inl (start_marked hmark hk)⟩
    · have hquiet := start_quiet o hs hid
      refine ⟨activate_complete hactivate (hquiet.complete hs), fun k hk => ?_, fun k hk => ?_⟩
      · have hk : Marked s k := hk.elim (fun hk => hk) False.elim
        exact activate_keeps hactivate (Or.inl (hquiet.marked k hk))
      · obtain hold | ⟨-, o', ho', hstartup', -⟩ | hmeets := activate_marks hactivate hk
        · exact Or.inl (start_marked hmark hold)
        · -- a new observation is not of a startup benchmark yet
          dsimp only at ho'
          rw [update_self] at ho'
          cases ho'
          cases hstartup.symm.trans hstartup'
        · exact Or.inr (Or.inr hmeets)

end Operations

theorem idle_complete : Complete idle :=
  ⟨fun _ ha => absurd ha List.not_mem_nil, fun _ _ hab => absurd hab.left List.not_mem_nil⟩

theorem complete_of_reach {s : State} (h : Reach step Free idle s) : Complete s :=
  h.invariant idle_complete fun _ _ _ hu _ hv => (step_advances hu hv).complete

/-- After every run: those that have met another are marked, both of them; nobody else is, but for
what disturbs an observation without another one; and what was marked is marked still. -/
theorem contamination {ops : List Op} {t : State} (h : exec step idle ops = some t) :
    (∀ a b, Once step idle ops (fun s => Meets s a b) → Marked t a ∧ Marked t b) ∧
    (∀ a, Marked t a ↔ Once step idle ops (fun s => ∃ b, Meets s a b) ∨
      OnceStep step idle ops fun s op _ => Disturbs s op a) ∧
    ∀ a, Once step idle ops (fun s => Marked s a) → Marked t a := by
  have hkeeps : ∀ a, Once step idle ops (fun s => Marked s a) → Marked t a := fun a honce =>
    latch_of_once (P := fun s => Marked s a)
      (fun u op v hu hv hk => (step_advances (complete_of_reach hu) hv).keeps a (Or.inl hk)) h honce
  have hmeets : ∀ a, Once step idle ops (fun s => ∃ b, Meets s a b) → Marked t a :=
    fun a honce => hkeeps a (honce.mono fun u hu ⟨b, hab⟩ => (complete_of_reach hu).marked a b hab)
  refine ⟨fun a b honce => ⟨hmeets a ?_, hmeets b ?_⟩, fun a => ⟨fun hmarked => ?_, ?_⟩, hkeeps⟩
  · exact honce.mono fun u _ hab => ⟨b, hab⟩
  · exact honce.mono fun u _ hab => ⟨a, hab.symm⟩
  · have hlatch : OnceStep step idle ops fun s op v => Disturbs s op a ∨ ∃ b, Meets v a b :=
      onceStep_of_latch (P := fun s => Marked s a) Bool.false_ne_true
        (fun u op v hu hv hk => (step_advances (complete_of_reach hu) hv).marks a hk) h hmarked
    obtain hdisturbs | hmet := hlatch.or
    · exact Or.inr hdisturbs
    · exact Or.inl (hmet.once fun u op v _ _ hv => hv)
  · rintro (honce | hdisturbs)
    · exact hmeets a honce
    · exact hkeeps a (hdisturbs.once fun u op v hu hv hd =>
        (step_advances (complete_of_reach hu) hv).keeps a (Or.inr hd))

/-- One observation is active on a node when another is taken there from a second node; both end
before a third begins. -/
def moved : List Op :=
  [.start "a" true 1 (some {"node:1"}) false, .start "b" true 1 (some {"node:2"}) false,
    .activate "b" (some {"node:1"}) (fun _ => 0) [], .observationEnd "a", .observationEnd "b",
    .start "c" true 1 (some {"node:1"}) false]

theorem contamination_moved :
    ∃ t, exec step idle moved = some t ∧ (Marked t "a" ∧ Marked t "b") ∧ t.active = ["c"] ∧
      ¬ Marked t "c" := by
  refine ⟨_, rfl, (@contamination moved _ rfl).1 "a" "b" ?_, by decide +kernel,
    Bool.false_ne_true⟩
  exact ⟨moved.take 3, moved.drop 3, _, rfl, rfl, by decide, by decide +kernel, by decide +kernel,
    {"node:1"}, {"node:1"}, rfl, rfl, by decide⟩

end SparkDeck.Contamination
