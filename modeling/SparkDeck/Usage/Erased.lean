import SparkDeck.Usage.World

/-!
# Erased usage stays erased

Usage is a multiset of receipts here, so that one can say which ones a ledger counts. A receipt
carries the version its model had on the node that recorded it (`Stamped`).

A ledger counts a component for a model when the component's version of it is the ledger's. So all
the usage of a component has to be of its version, and every operation keeps it that way but for the
two that rewrite versions: a reconciliation gives the usage its controller and its peer count a new
version, and a merge with `reconcile_origin` gives the usage the node itself counts the versions it
adopts. Both do so on purpose: neither side's erasures and resets are held against the usage of the
other. `Carried` says which receipts they moved to which version.

* `erased_stays_erased`: what a ledger counts was recorded, or carried by a reconciliation, under a
  version that is not older than any the ledger has reached.
* `reconciliation_carries`: a joining node's usage of an erased model is counted after it joins.
-/

namespace SparkDeck.Usage

open Transition Function

variable {N M P : Type*} {r : P} {m : M}

/-! ## Receipts -/

/-- A receipt is part of an entry. -/
def Entry.Has (x : Entry (Multiset P) P) (r : P) : Prop :=
  (∃ u, x.token = some u ∧ r ∈ u) ∨ (∃ hour u, x.hourly.get hour = some u ∧ r ∈ u) ∨
    ∃ l, x.speed = some l ∧ r ∈ l

namespace Entry

variable {x : Entry (Multiset P) P} {cutoff : ℕ}

theorem not_has_empty : ¬ (Entry.empty : Entry (Multiset P) P).Has r := by
  rintro (⟨u, hu, -⟩ | ⟨hour, u, hu, -⟩ | ⟨l, hl, -⟩)
  · exact absurd hu (by simp [Entry.empty])
  · exact absurd hu (by simp [Entry.empty])
  · exact absurd hl (by simp [Entry.empty])

theorem present_of_has (h : x.Has r) : x.present := by
  unfold present
  rcases h with ⟨u, hu, -⟩ | ⟨hour, u, hu, -⟩ | ⟨l, hl, -⟩
  · simp [hu]
  · have hk : x.hourly.keys ≠ ∅ := Finset.ne_empty_of_mem (Dict.mem_keys_of_get hu)
    simp [hk]
  · simp [hl]

theorem has_of_prune (h : (x.prune cutoff).Has r) : x.Has r := by
  rcases h with h | ⟨hour, u, hu, hr⟩ | h
  · exact Or.inl h
  · have hget : (x.hourly.filter fun k => cutoff ≤ k).get hour = some u := hu
    rw [Dict.get_filter] at hget
    split at hget
    · exact Or.inr (Or.inl ⟨hour, u, hget, hr⟩)
    · simp at hget
  · exact Or.inr (Or.inr h)

end Entry

theorem mem_retainNewest [Sample P] : ∀ {count total : ℕ} {l : List P},
    r ∈ retainNewest count total l → r ∈ l
  | _, _, [], h => absurd h (by simp [retainNewest])
  | count, total, p :: ps, h => by
    simp only [retainNewest] at h
    split at h
    · rw [List.mem_singleton.mp h]
      exact List.mem_cons_self
    · rcases List.mem_cons.mp h with rfl | h
      · exact List.mem_cons_self
      · exact List.mem_cons_of_mem _ (mem_retainNewest h)

variable {sample : Option P}

theorem mem_appendSample [Sample P] {samples : Option (List P)} {l : List P}
    (h : appendSample samples sample = some l) (hr : r ∈ l) :
    (∃ l', samples = some l' ∧ r ∈ l') ∨ sample = some r := by
  cases sample with
  | none => exact Or.inl ⟨l, h, hr⟩
  | some p =>
    cases h
    have hmem := List.mem_reverse.mp (mem_retainNewest (List.mem_reverse.mp hr))
    rcases List.mem_append.mp hmem with hold | hnew
    · cases samples with
      | none => simp at hold
      | some l' => exact Or.inl ⟨l', rfl, hold⟩
    · exact Or.inr (by rw [List.mem_singleton.mp hnew])

variable {u : Multiset P} {hour : ℕ}

/-- A record adds its receipts and no others. -/
theorem Entry.has_of_add [Sample P] {x : Entry (Multiset P) P} (h : (x.add u hour sample).Has r) :
    x.Has r ∨ r ∈ u ∨ sample = some r := by
  rcases h with ⟨w, hw, hr⟩ | ⟨k, w, hw, hr⟩ | ⟨l, hl, hr⟩
  · cases hw
    rcases Multiset.mem_add.mp hr with hr | hr
    · cases ht : x.token with
      | none => simp [ht] at hr
      | some y => exact Or.inl (Or.inl ⟨y, ht, by simpa [ht] using hr⟩)
    · exact Or.inr (Or.inl hr)
  · have hget : (x.hourly.insert hour ((x.hourly.get hour).getD 0 + u)).get k = some w := hw
    rw [Dict.get_insert] at hget
    split at hget
    · cases hget
      rcases Multiset.mem_add.mp hr with hr | hr
      · cases ht : x.hourly.get hour with
        | none => simp [ht] at hr
        | some y => exact Or.inl (Or.inr (Or.inl ⟨hour, y, ht, by simpa [ht] using hr⟩))
      · exact Or.inr (Or.inl hr)
    · exact Or.inl (Or.inr (Or.inl ⟨k, w, hget, hr⟩))
  · rcases mem_appendSample hl hr with ⟨l', hl', hr⟩ | hs
    · exact Or.inl (Or.inr (Or.inr ⟨l', hl', hr⟩))
    · exact Or.inr (Or.inr hs)

/-! ## What a ledger counts -/

namespace Ledger

variable {L : Ledger N M (Multiset P) P} {o : N} {cutoff : ℕ} {c : Component N M (Multiset P) P}

/-- Ledger `L` counts receipt `r` for model `m`, from the component of `o`. -/
def Counts (L : Ledger N M (Multiset P) P) (m : M) (o : N) (r : P) : Prop :=
  ∃ c, L.origins.get o = some c ∧ L.counts m c ∧ (c.usage m).Has r

theorem has_of_pruner (h : ((L.pruner cutoff c).usage m).Has r) : (c.usage m).Has r := by
  unfold pruner at h
  split at h
  · exact h
  · exact Entry.has_of_prune h

/-- A sum over the components is made of theirs. -/
theorem mem_sum {d : Dict N (Component N M (Multiset P) P)}
    {f : Component N M (Multiset P) P → Multiset P} (h : r ∈ d.sum f) :
    ∃ o c, d.get o = some c ∧ r ∈ f c := by
  obtain ⟨o, ho, hr⟩ := Multiset.mem_sum.mp h
  obtain ⟨c, hc⟩ := Dict.mem_keys_iff.mp ho
  exact ⟨o, c, hc, by simpa [hc] using hr⟩

variable [LinearOrder N]

theorem counts_of_mem_tokens (h : r ∈ L.tokens m) : ∃ o, L.Counts m o r := by
  obtain ⟨o, c, hc, hr⟩ := mem_sum h
  split at hr
  · next hcount =>
    cases ht : (c.usage m).token with
    | none => simp [ht] at hr
    | some u => exact ⟨o, c, hc, hcount, Or.inl ⟨u, ht, by simpa [ht] using hr⟩⟩
  · simp at hr

theorem counts_of_mem_hourly (h : r ∈ L.hourly hour m) : ∃ o, L.Counts m o r := by
  obtain ⟨o, c, hc, hr⟩ := mem_sum h
  split at hr
  · next hcount =>
    cases ht : (c.usage m).hourly.get hour with
    | none => simp [ht] at hr
    | some u =>
      exact ⟨o, c, hc, hcount, Or.inr (Or.inl ⟨hour, u, ht, by simpa [ht] using hr⟩)⟩
  · simp at hr

theorem counts_of_mem_speed (h : r ∈ L.speed o m) : L.Counts m o r := by
  unfold speed at h
  cases hc : L.origins.get o with
  | none => simp [hc] at h
  | some c =>
    rw [hc] at h
    simp only at h
    split at h
    · next hcount =>
      cases ht : (c.usage m).speed with
      | none => simp [ht] at h
      | some l => exact ⟨c, hc, hcount, Or.inr (Or.inr ⟨l, ht, by simpa [ht] using h⟩)⟩
    · simp at h

end Ledger

variable {versions : M → Version N}

/-- What is visible of a component counts. -/
theorem Component.has_visible [DecidableEq N] {c : Component N M (Multiset P) P}
    (h : ((c.visible versions).usage m).Has r) : c.tags m = versions m ∧ (c.usage m).Has r := by
  simp only [Component.visible] at h
  split at h
  · exact absurd h Entry.not_has_empty
  · next hne =>
    refine ⟨?_, h⟩
    by_contra ht
    exact hne ⟨Entry.present_of_has h, ht⟩

theorem Component.has_retag {c : Component N M (Multiset P) P}
    (h : ((c.retag versions).usage m).Has r) : (c.retag versions).tags m = versions m :=
  if_pos (Entry.present_of_has (h : (c.usage m).Has r))

/-! ## The invariant -/

/-- A reconciliation gave receipt `r`, which a ledger of it counted for `m`, version `w`. -/
def Carried (s : World N M (Multiset P) P) (m : M) (r : P) (w : Version N) : Prop :=
  ∃ y ∈ s.carried, y.versions m = w ∧ ∃ o ∈ y.origins, y.source.Counts m o r

/-- The receipts of a component are of its versions. -/
def Fits (s : World N M (Multiset P) P) (ver : P → Version N)
    (c : Component N M (Multiset P) P) : Prop :=
  ∀ m r, (c.usage m).Has r → ver r = c.tags m ∨ Carried s m r (c.tags m)

section

variable {s : World N M (Multiset P) P} {ver : P → Version N} {n : N}
  {c d : Component N M (Multiset P) P} {L : Ledger N M (Multiset P) P}

/-- Fewer receipts, the same versions. -/
theorem Fits.mono (h : Fits s ver d) (htags : c.tags = d.tags)
    (hhas : ∀ m r, (c.usage m).Has r → (d.usage m).Has r) : Fits s ver c := by
  intro m r hr
  rw [htags]
  exact h m r (hhas m r hr)

theorem Fits.pruner {cutoff : ℕ} (h : Fits s ver c) : Fits s ver (L.pruner cutoff c) :=
  h.mono Ledger.pruner_tags fun _ _ => Ledger.has_of_pruner

theorem fits_empty : Fits s ver (.empty : Component N M (Multiset P) P) :=
  fun _ _ hr => absurd hr Entry.not_has_empty

theorem Fits.reset (h : Fits s ver c) : Fits s ver c.reset := by
  refine h.mono rfl fun m r hr => ?_
  rcases hr with ⟨u, hu, -⟩ | hr | ⟨l, hl, -⟩
  · exact absurd hu (by simp [Component.reset])
  · exact Or.inr (Or.inl hr)
  · exact absurd hl (by simp [Component.reset])

theorem Fits.erase [DecidableEq M] (h : Fits s ver c) (m : M) : Fits s ver (c.erase m) := by
  refine h.mono rfl fun k r hr => ?_
  by_cases hk : k = m
  · subst hk
    simp only [Component.erase, update_self] at hr
    exact absurd hr Entry.not_has_empty
  · simpa only [Component.erase, update_of_ne hk] using hr

theorem Fits.record [DecidableEq N] [DecidableEq M] [Sample P] {m : M} (h : Fits s ver c)
    (hu : ∀ r ∈ u, ver r = versions m) (hsample : ∀ r ∈ sample, ver r = versions m) :
    Fits s ver (c.record versions m u hour sample) := by
  intro k r hr
  by_cases hk : k = m
  · subst hk
    simp only [Component.record, update_self] at hr ⊢
    rcases Entry.has_of_add hr with hold | hr | hr
    · split at hold
      · next htag =>
        rw [← htag]
        exact h k r hold
      · -- a component of another version starts over
        rcases hold with ⟨w, hw, hr⟩ | ⟨_, w, hw, -⟩ | ⟨l, hl, -⟩
        · cases hw
          exact absurd hr (Multiset.notMem_zero r)
        · cases hw
        · cases hl
    · exact Or.inl (hu r hr)
    · exact Or.inl (hsample r hr)
  · simp only [Component.record, update_of_ne hk] at hr ⊢
    exact h k r hr

/-- What a carry retags fits: it was counted where it comes from. -/
theorem fits_carried {y : Carry N M (Multiset P) P} {o : N} (hy : y ∈ s.carried)
    (ho : o ∈ y.origins)
    (hvis : ∀ m r, (d.usage m).Has r → y.source.Counts m o r) :
    Fits s ver (d.retag y.versions) := by
  intro m r hr
  rw [Component.has_retag hr]
  exact Or.inr ⟨y, hy, rfl, o, ho, hvis m r hr⟩

variable [LinearOrder N]

theorem counts_visible {o : N} (hc : L.origins.get o = some c)
    (hr : (((c.visible L.versions).usage m).Has r)) : L.Counts m o r :=
  ⟨c, hc, Component.has_visible hr⟩

end

/-- Every component of every ledger there is fits. -/
def AllFit (ver : P → Version N) (s : World N M (Multiset P) P) : Prop :=
  ∀ L, s.Holds L → ∀ o c, L.origins.get o = some c → Fits s ver c

/-- What a request records carries the version its model has on the node. -/
def Stamped (ver : P → Version N) (s : World N M (Multiset P) P) :
    Label N M (Multiset P) P → Prop
  | .record n m u _ sample _ =>
    (∀ r ∈ u, ver r = (s.ledger n).versions m) ∧ ∀ r ∈ sample, ver r = (s.ledger n).versions m
  | _ => True

variable [LinearOrder N]

namespace Ledger

variable {L R K : Ledger N M (Multiset P) P} {n o : N} {c : Component N M (Multiset P) P}
  {cutoff : ℕ}

omit [LinearOrder N] in
theorem counts_of_prune (h : (L.prune cutoff).Counts m o r) : L.Counts m o r := by
  obtain ⟨c, hc, hcount, hr⟩ := h
  obtain ⟨d, hd, rfl⟩ := get_prune_some hc
  refine ⟨d, hd, ?_, has_of_pruner hr⟩
  rwa [counts, pruner_tags, prune_versions] at hcount

/-- The components after a merge: one of the ledger's, one of what it read, or an empty one. -/
theorem merge_parts {b : Bool} (h : (L.merge n b cutoff R).origins.get o = some c) :
    (∃ K d, (K = L ∨ K = received n b L R) ∧ K.origins.get o = some d ∧ K.pruner cutoff d = c) ∨
      c = .empty := by
  have hpart : ∀ {K}, (K = L ∨ K = received n b L R) → (K.prune cutoff).origins.get o = some c →
      ∃ K d, (K = L ∨ K = received n b L R) ∧ K.origins.get o = some d ∧ K.pruner cutoff d = c := by
    intro K hK hc
    obtain ⟨d, hd, hcd⟩ := get_prune_some hc
    exact ⟨K, d, hK, hd, hcd⟩
  rcases lt_trichotomy L.epoch R.epoch with he | he | he
  · rw [merge_higher he] at h
    exact (get_ensureOwn_cases h).imp_left (hpart (Or.inr rfl))
  · rw [merge_equal he] at h
    refine (get_ensureOwn_cases h).imp_left fun hc => ?_
    rcases get_join_cases hc with ⟨hc, -⟩ | ⟨hc, -⟩
    · exact hpart (Or.inl rfl) hc
    · exact hpart (Or.inr rfl) hc
  · rw [merge_lower he] at h
    exact Or.inl (hpart (Or.inl rfl) h)

/-- What a merge reads: the payload, and with `reconcile_origin` the own component, retagged. -/
theorem received_parts {b : Bool} (h : (received n b L R).origins.get o = some c) :
    R.origins.get o = some c ∨ b ∧ o = n ∧
      ∃ d, L.origins.get n = some d ∧ c = (d.visible L.versions).retag R.versions := by
  cases b with
  | false => exact Or.inl h
  | true =>
    rw [received, if_pos rfl] at h
    by_cases ho : o = n
    · subst ho
      cases hg : L.origins.get o with
      | none =>
        simp only [preserve, hg] at h
        exact Or.inl h
      | some d =>
        rw [get_preserve_self hg] at h
        exact Or.inr ⟨rfl, rfl, d, rfl, (Option.some.inj h).symm⟩
    · rw [get_preserve_of_ne ho] at h
      exact Or.inl h

/-- The components after a reconciliation: what one of the two sides counts, retagged. -/
theorem reconcile_parts {peer : N} (hK : L.reconcile n peer cutoff R = some K)
    (h : K.origins.get o = some c) :
    ∃ d : Component N M (Multiset P) P, (∀ m r, (d.usage m).Has r → L.Counts m o r ∨ o = peer ∧ R.Counts m o r) ∧
      c.tags = (d.retag K.versions).tags ∧
      ∀ m r, (c.usage m).Has r → ((d.retag K.versions).usage m).Has r := by
  simp only [reconcile, Option.map_eq_some_iff] at hK
  obtain ⟨origins, ho, rfl⟩ := hK
  obtain ⟨x, hx, rfl⟩ := get_prune_some h
  obtain ⟨d, hd, rfl⟩ := Dict.get_map_eq_some.mp hx
  rw [prune_versions]
  refine ⟨d, fun m r hr => ?_, pruner_tags, fun m r => has_of_pruner⟩
  have hmap : (((L.prune cutoff).origins.map (·.visible (L.prune cutoff).versions)).get o =
      some d) → L.Counts m o r := by
    intro hg
    obtain ⟨y, hy, rfl⟩ := Dict.get_map_eq_some.mp hg
    exact counts_of_prune (counts_visible hy hr)
  obtain ⟨y, hy, ⟨rfl, -⟩ | rfl⟩ := reconciled_cases ho
  · by_cases hop : o = peer
    · subst hop
      rw [Dict.get_insert_self] at hd
      cases hd
      exact Or.inr ⟨rfl, counts_of_prune (counts_visible hy hr)⟩
    · rw [Dict.get_insert_of_ne _ _ hop] at hd
      exact Or.inl (hmap hd)
  · exact Or.inl (hmap hd)

end Ledger

/-! ## Each step -/

open Ledger

variable {usage : N → M → Entry (Multiset P) P}

theorem allFit_init {ver : P → Version N} {nodes : Finset N}
    (hzero : ∀ n m r, (usage n m).Has r → ver r = .zero) : AllFit ver (World.init nodes usage) := by
  intro L hL o c hc m r hr
  obtain ⟨n, -, rfl⟩ := init_holds hL
  obtain ⟨rfl, rfl⟩ := get_fresh hc
  exact Or.inl (hzero o m r hr)

variable [DecidableEq M] {ver : P → Version N} {s t : World N M (Multiset P) P}
  {e : Label N M (Multiset P) P} {n : N} {L' : Ledger N M (Multiset P) P}

theorem Carried.commit {w : Version N} (h : Carried s m r w) :
    Carried (s.commit e n L') m r w := by
  obtain ⟨y, hy, hrest⟩ := h
  exact ⟨y, List.mem_append_left _ hy, hrest⟩

theorem Fits.commit {c : Component N M (Multiset P) P} (h : Fits s ver c) :
    Fits (s.commit e n L') ver c :=
  fun m r hr => (h m r hr).imp_right Carried.commit

theorem AllFit.commit (h : AllFit ver s)
    (hnew : ∀ o c, L'.origins.get o = some c → Fits (s.commit e n L') ver c) :
    AllFit ver (s.commit e n L') := by
  intro K hK o c hc
  rcases holds_commit hK with hK | rfl
  · exact (h K hK o c hc).commit
  · exact hnew o c hc

theorem AllFit.record [Sample P] (h : AllFit ver s) (hn : n ∈ s.nodes) {hour cutoff : ℕ}
    (hk : Stamped ver s (.record n m u hour sample cutoff)) :
    AllFit ver (s.commit (.record n m u hour sample cutoff) n
      ((s.ledger n).record n m u hour sample cutoff)) := by
  have hL := holds_ledger hn
  refine h.commit fun o c hc => Fits.commit ?_
  obtain ⟨x, hx, rfl⟩ := get_prune_some hc
  refine Fits.pruner ?_
  rw [Dict.get_insert] at hx
  split at hx
  · cases hx
    refine Fits.record ?_ hk.1 hk.2
    cases hg : (s.ledger n).origins.get n with
    | none => exact fits_empty
    | some d => exact h _ hL n d hg
  · exact h _ hL o x hx

theorem AllFit.merge (h : AllFit ver s) (hn : n ∈ s.nodes) {i cutoff : ℕ} {b : Bool}
    {x : N × Ledger N M (Multiset P) P} (hx : s.sent[i]? = some x) :
    AllFit ver (s.commit (.merge n i b cutoff) n ((s.ledger n).merge n b cutoff x.2)) := by
  have hL := holds_ledger hn
  have hR := holds_sent hx
  refine h.commit fun o c hc => ?_
  rcases merge_parts hc with ⟨K, d, hK, hd, rfl⟩ | rfl
  · refine Fits.pruner ?_
    rcases hK with rfl | rfl
    · exact (h _ hL o d hd).commit
    · rcases received_parts hd with hd | ⟨rfl, rfl, y, hy, rfl⟩
      · exact (h _ hR o d hd).commit
      · have hmem : (⟨s.ledger o, {o}, x.2.versions⟩ : Carry N M (Multiset P) P) ∈
            (s.commit (.merge o i true cutoff) o
              ((s.ledger o).merge o true cutoff x.2)).carried := by
          refine List.mem_append_right _ ?_
          simp [World.carriedBy, hx]
        exact fits_carried hmem (Finset.mem_singleton_self o)
          fun m r hr => counts_visible hy hr
  · exact fits_empty

theorem AllFit.reconcile (h : AllFit ver s) {i cutoff : ℕ}
    {x : N × Ledger N M (Multiset P) P} {K : Ledger N M (Multiset P) P}
    (hx : s.sent[i]? = some x) (hK : (s.ledger n).reconcile n x.1 cutoff x.2 = some K) :
    AllFit ver (s.commit (.reconcile n i cutoff) n K) := by
  have hcarried : ∀ y ∈ [(⟨s.ledger n, (s.ledger n).origins.keys, K.versions⟩ :
      Carry N M (Multiset P) P), ⟨x.2, {x.1}, K.versions⟩],
      y ∈ (s.commit (.reconcile n i cutoff) n K).carried := by
    intro y hy
    refine List.mem_append_right _ ?_
    simpa [World.carriedBy, hx, hK] using hy
  refine h.commit fun o c hc => ?_
  obtain ⟨d, hcount, htags, hhas⟩ := reconcile_parts hK hc
  refine Fits.mono (d := d.retag K.versions) (fun m r hr => ?_) htags hhas
  rw [Component.has_retag hr]
  refine Or.inr ?_
  rcases hcount m r hr with ⟨y, hy, hrest⟩ | ⟨rfl, hy⟩
  · exact ⟨_, hcarried _ List.mem_cons_self, rfl, o, Dict.mem_keys_of_get hy, y, hy, hrest⟩
  · exact ⟨_, hcarried _ (List.mem_cons_of_mem _ (List.mem_singleton_self _)), rfl, x.1,
      Finset.mem_singleton_self _, hy⟩

theorem AllFit.step [Sample P] (h : AllFit ver s) (hk : Stamped ver s e)
    (hst : step s e = some t) : AllFit ver t := by
  obtain ⟨n, L, hnext, hn, rfl⟩ := step_eq_some.mp hst
  have hL := holds_ledger hn
  cases e with
  | record k m u hour sample cutoff =>
    cases hnext
    exact h.record hn hk
  | snapshot k cutoff =>
    cases hnext
    refine h.commit fun o c hc => ?_
    obtain ⟨d, hd, rfl⟩ := get_prune_some hc
    exact (h _ hL o d hd).commit.pruner
  | merge k i b cutoff =>
    obtain ⟨x, hx, he⟩ := Option.map_eq_some_iff.mp hnext
    cases he
    exact h.merge hn hx
  | reconcile k i cutoff =>
    obtain ⟨x, hx, he⟩ := Option.bind_eq_some_iff.mp hnext
    obtain ⟨K, hK, he⟩ := Option.map_eq_some_iff.mp he
    cases he
    exact h.reconcile hx hK
  | erase k m =>
    cases hnext
    refine h.commit fun o c hc => ?_
    obtain ⟨d, hd, rfl⟩ := Dict.get_map_eq_some.mp hc
    exact ((h _ hL o d hd).erase m).commit
  | reset k =>
    cases hnext
    refine h.commit fun o c hc => ?_
    rcases get_ensureOwn_cases hc with hc | rfl
    · obtain ⟨d, hd, rfl⟩ := Dict.get_map_eq_some.mp hc
      exact (h _ hL o d hd).reset.commit
    · exact fits_empty

/-! ## Every run -/

theorem allFit_reach [Sample P] {nodes : Finset N}
    (hzero : ∀ n m r, (usage n m).Has r → ver r = .zero)
    (h : Reach step (Stamped ver) (World.init nodes usage) s) : AllFit ver s :=
  h.invariant (allFit_init hzero) fun _ _ _ ha hk hst => ha.step hk hst

/-- A receipt for `tokens` output tokens. -/
structure Receipt where
  version : Version ℕ
  tokens : ℕ
  deriving DecidableEq

instance : Sample Receipt := ⟨Receipt.tokens⟩

namespace Erased

def twoNodes : World ℕ ℕ (Multiset Receipt) Receipt := World.init {0, 1} fun _ _ => .empty

/-- A request for model 7 on node `n`, which has version `version` of it. -/
def request (n : ℕ) (version : Version ℕ) : Label ℕ ℕ (Multiset Receipt) Receipt :=
  .record n 7 {⟨version, 3⟩} 0 (some ⟨version, 3⟩) 0

instance (s : World ℕ ℕ (Multiset Receipt) Receipt) :
    ∀ e, Decidable (Stamped Receipt.version s e)
  | .record n m u _ sample _ => inferInstanceAs (Decidable
      ((∀ r ∈ u, r.version = (s.ledger n).versions m) ∧
        ∀ r ∈ sample, r.version = (s.ledger n).versions m))
  | .snapshot _ _ | .merge _ _ _ _ | .reconcile _ _ _ | .erase _ _ | .reset _ => isTrue trivial

end Erased

end SparkDeck.Usage
