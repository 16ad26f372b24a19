import SparkDeck.Usage.World

/-!
# No update is lost

For one model `m`: what each node recorded of it stays in the node's own component, and the totals
of all nodes agree once everyone has heard of everyone.

Components are replaced whole, by revision, and an erase of any model raises the revisions of all
the components of a ledger, also of those it only has copies of. `Keeps m` is the condition under
which that does no harm: nobody records on a component of which a newer revision exists, no erase
lifts a stale copy to the revision of its origin, and nobody adopts a higher epoch that lacks its own
usage. The invariant (`Inv.current`) is that a copy not older than its origin's own component holds
what the origin recorded.

* `no_update_lost`: the two guarantees, in every run whose steps meet `Keeps m`.
* `stale_erase_loses`: two erases on a stale copy, and a merge drops a record from the component of
  the node that made it.
-/

namespace SparkDeck.Usage

open Transition Function

variable {N M U P : Type*} {m : M}

namespace Ledger

/-- What the ledger holds of `m` has the ledger's version. -/
def Tagged (m : M) (L : Ledger N M U P) : Prop :=
  ∀ o c, L.origins.get o = some c → (c.usage m).token ≠ none → c.tags m = L.versions m

/-- A component of `L` copies one of `R`: same revision, same usage of `m`. -/
def Copies (m : M) (o : N) (c : Component N M U P) (R : Ledger N M U P) : Prop :=
  ∃ d, R.origins.get o = some d ∧ c.revision = d.revision ∧
    (c.usage m).token = (d.usage m).token

variable {n o : N} {L R K : Ledger N M U P} {c d : Component N M U P} {cutoff : ℕ}

/-! ## Pruning and hiding keep the usage of `m` -/

theorem Tagged.prune (h : Tagged m L) : Tagged m (L.prune cutoff) := by
  intro o c hc ht
  obtain ⟨d, hd, rfl⟩ := get_prune_some hc
  rw [pruner_token] at ht
  rw [pruner_tags, prune_versions]
  exact h o d hd ht

theorem copies_of_prune (h : (L.prune cutoff).origins.get o = some c) : Copies m o c L := by
  obtain ⟨d, hd, rfl⟩ := get_prune_some h
  exact ⟨d, hd, pruner_revision, pruner_token⟩

theorem Copies.of_prune (h : Copies m o c (L.prune cutoff)) : Copies m o c L := by
  obtain ⟨d, hd, hr, ht⟩ := h
  obtain ⟨x, hx, hxr, hxt⟩ := copies_of_prune (m := m) hd
  exact ⟨x, hx, hr.trans hxr, ht.trans hxt⟩

theorem present_of_token {x : Entry U P} (h : x.token ≠ none) : x.present := by
  have hs : x.token.isSome := Option.isSome_iff_ne_none.mpr h
  simp [Entry.present, hs]

theorem retag_tags {versions : M → Version N}
    (h : ((c.retag versions).usage m).token ≠ none) :
    (c.retag versions).tags m = versions m :=
  if_pos (present_of_token h)

variable [LinearOrder N]

/-- Usage of the ledger's version is visible. -/
theorem visible_token (h : (c.usage m).token ≠ none → c.tags m = L.versions m) :
    ((c.visible L.versions).usage m).token = (c.usage m).token := by
  simp only [Component.visible]
  split
  · next hx =>
    have hn : (c.usage m).token = none := by
      by_contra ht
      exact hx.2 (h ht)
    rw [hn]
    rfl
  · rfl

/-! ## What a merge keeps -/

/-- `L` is at least as new as `R`: a higher epoch, or no older component. The component of `n`
itself is left out. -/
def Covers (n : N) (R L : Ledger N M U P) : Prop :=
  R.epoch ≤ L.epoch ∧ (R.epoch = L.epoch → ∀ o, o ≠ n → ∀ c, R.origins.get o = some c →
    ∃ c', L.origins.get o = some c' ∧ c.revision ≤ c'.revision)

theorem Covers.trans (h : Covers n R L) (h' : Covers n L K) : Covers n R K := by
  refine ⟨h.1.trans h'.1, fun he o ho c hc => ?_⟩
  have hRL : R.epoch = L.epoch := le_antisymm h.1 (he ▸ h'.1)
  obtain ⟨d, hd, hcd⟩ := h.2 hRL o ho c hc
  obtain ⟨x, hx, hdx⟩ := h'.2 (hRL ▸ he) o ho d hd
  exact ⟨x, hx, hcd.trans hdx⟩

theorem Covers.of_lt (h : R.epoch < L.epoch) : Covers n R L :=
  ⟨le_of_lt h, fun he => absurd he (ne_of_lt h)⟩

theorem covers_prune : Covers n L (L.prune cutoff) := by
  refine ⟨by rw [prune_epoch], fun _ o _ c hc => ?_⟩
  exact ⟨L.pruner cutoff c, by rw [get_prune, hc]; rfl, by rw [pruner_revision]⟩

variable {b : Bool}

theorem received_copies (hL : Tagged m L) (h : (received n b L R).origins.get o = some c) :
    Copies m o c R ∨ o = n ∧ b ∧ Copies m o c L := by
  by_cases ho : o = n
  · subst ho
    cases b with
    | false => exact Or.inl ⟨c, h, rfl, rfl⟩
    | true =>
      cases hg : L.origins.get o with
      | none =>
        simp only [received, if_true, preserve, hg] at h
        exact Or.inl ⟨c, h, rfl, rfl⟩
      | some d =>
        rw [received, if_pos rfl, get_preserve_self hg] at h
        cases h
        exact Or.inr ⟨rfl, rfl, d, hg, rfl, visible_token (hL o d hg)⟩
  · rw [get_received_of_ne ho] at h
    exact Or.inl ⟨c, h, rfl, rfl⟩

theorem received_tagged (hR : Tagged m R) : Tagged m (received n b L R) := by
  intro o c hc ht
  by_cases ho : o = n
  · subst ho
    cases b with
    | false => exact hR o c hc ht
    | true =>
      cases hg : L.origins.get o with
      | none =>
        simp only [received, if_true, preserve, hg] at hc ⊢
        exact hR o c hc ht
      | some d =>
        rw [received, if_pos rfl, get_preserve_self hg] at hc
        cases hc
        rw [received_versions]
        exact retag_tags ht
  · rw [get_received_of_ne ho] at hc
    rw [received_versions]
    exact hR o c hc ht

theorem ensureOwn_tagged (h : Tagged m L) : Tagged m (L.ensureOwn n) := by
  intro o c hc ht
  rw [ensureOwn_versions]
  by_cases ho : o = n
  · subst ho
    rw [get_ensureOwn_self] at hc
    cases hg : L.origins.get o with
    | none =>
      rw [hg] at hc
      cases hc
      exact absurd rfl ht
    | some d =>
      rw [hg] at hc
      cases hc
      exact h o d hg ht
  · rw [get_ensureOwn_of_ne ho] at hc
    exact h o c hc ht

theorem join_tagged (hL : Tagged m L) (hR : Tagged m R) (hv : L.versions m = R.versions m) :
    Tagged m (L.join R) := by
  intro o c hc ht
  have hj : (L.join R).versions m = L.versions m := by
    show max _ _ = _
    rw [hv, max_self]
  rw [hj]
  rcases get_join_cases hc with ⟨hc, -⟩ | ⟨hc, -⟩
  · exact hL o c hc ht
  · rw [hv]
    exact hR o c hc ht

theorem covers_join_left : Covers n L (L.join R) :=
  ⟨le_refl _, fun _ _ _ _ hc => get_join_of_some (Or.inl hc)⟩

theorem covers_join_right (h : L.epoch = R.epoch) : Covers n R (L.join R) :=
  ⟨le_of_eq h.symm, fun _ _ _ _ hc => get_join_of_some (Or.inr hc)⟩

theorem covers_ensureOwn : Covers n L (L.ensureOwn n) :=
  ⟨by rw [ensureOwn_epoch], fun _ _ ho c hc => ⟨c, by rw [get_ensureOwn_of_ne ho]; exact hc,
    Nat.le_refl _⟩⟩

theorem covers_received : Covers n R (received n b L R) :=
  ⟨by rw [received_epoch], fun _ _ ho c hc => ⟨c, by rw [get_received_of_ne ho]; exact hc,
    Nat.le_refl _⟩⟩

/-- After a merge the ledger is at least as new as the one it was and the one it read. -/
theorem covers_merge : Covers n L (L.merge n b cutoff R) ∧ Covers n R (L.merge n b cutoff R) := by
  rcases lt_trichotomy L.epoch R.epoch with h | h | h
  · rw [merge_higher h]
    refine ⟨Covers.of_lt (by simpa using h), ?_⟩
    exact (covers_received.trans covers_prune).trans covers_ensureOwn
  · rw [merge_equal h]
    refine ⟨(covers_prune.trans covers_join_left).trans covers_ensureOwn, ?_⟩
    exact ((covers_received.trans covers_prune).trans (covers_join_right (by simpa using h))).trans
      covers_ensureOwn
  · rw [merge_lower h]
    exact ⟨covers_prune, Covers.of_lt (by simpa using h)⟩

theorem merge_tagged (hL : Tagged m L) (hR : Tagged m R)
    (hv : L.epoch = R.epoch → L.versions m = R.versions m) : Tagged m (L.merge n b cutoff R) := by
  rcases lt_trichotomy L.epoch R.epoch with h | h | h
  · rw [merge_higher h]
    exact ensureOwn_tagged (received_tagged hR).prune
  · rw [merge_equal h]
    exact ensureOwn_tagged (join_tagged hL.prune (received_tagged hR).prune (by simpa using hv h))
  · rw [merge_lower h]
    exact hL.prune

variable {c₀ : Component N M U P}

/-- A component after a merge copies one of the two ledgers, or is the empty component the node
makes for itself when it adopts a ledger without one. -/
theorem merge_copies (hL : Tagged m L) (hown : L.origins.get n = some c₀)
    (h : (L.merge n b cutoff R).origins.get o = some c) :
    Copies m o c L ∨ Copies m o c R ∨
      o = n ∧ (c.usage m).token = none ∧ L.epoch < R.epoch ∧ b = false ∧
        R.origins.get n = none := by
  have hrec : ∀ {d}, ((received n b L R).prune cutoff).origins.get o = some d →
      Copies m o d L ∨ Copies m o d R := by
    intro d hd
    obtain ⟨x, hx, hr, ht⟩ := copies_of_prune (m := m) hd
    rcases received_copies hL hx with ⟨y, hy, hyr, hyt⟩ | ⟨-, -, y, hy, hyr, hyt⟩
    · exact Or.inr ⟨y, hy, hr.trans hyr, ht.trans hyt⟩
    · exact Or.inl ⟨y, hy, hr.trans hyr, ht.trans hyt⟩
  rcases lt_trichotomy L.epoch R.epoch with he | he | he
  · rw [merge_higher he] at h
    by_cases ho : o = n
    · subst ho
      rw [get_ensureOwn_self] at h
      cases h
      cases hg : ((received o b L R).prune cutoff).origins.get o with
      | some d => exact (hrec hg).imp_right Or.inl
      | none =>
        refine Or.inr (Or.inr ⟨rfl, rfl, he, ?_⟩)
        rw [get_prune, Option.map_eq_none_iff] at hg
        cases b with
        | false => exact ⟨rfl, hg⟩
        | true => rw [received, if_pos rfl, get_preserve_self hown] at hg; simp at hg
    · rw [get_ensureOwn_of_ne ho] at h
      exact (hrec h).imp_right Or.inl
  · rw [merge_equal he] at h
    have hg : (L.prune cutoff).origins.get n = some (L.pruner cutoff c₀) := by
      rw [get_prune, hown]
      rfl
    obtain ⟨d, hd, -⟩ :=
      get_join_of_some (R := (received n b L R).prune cutoff) (Or.inl hg)
    rw [ensureOwn_of_some hd] at h
    rcases get_join_cases h with ⟨hc, -⟩ | ⟨hc, -⟩
    · exact Or.inl (copies_of_prune hc)
    · exact (hrec hc).imp_right Or.inl
  · rw [merge_lower he] at h
    exact Or.inl (copies_of_prune h)

/-- The node's own component after a merge is not older than it was, unless a higher epoch was
adopted whole: then it is the payload's. -/
theorem merge_own (hown : L.origins.get n = some c₀) :
    ∃ c, (L.merge n b cutoff R).origins.get n = some c ∧
      (c₀.revision ≤ c.revision ∨ L.epoch < R.epoch ∧ b = false ∧
        c.revision = R.revision n) := by
  rcases lt_trichotomy L.epoch R.epoch with he | he | he
  · rw [merge_higher he, get_ensureOwn_self]
    refine ⟨_, rfl, ?_⟩
    cases b with
    | true =>
      refine Or.inl ?_
      rw [get_prune, received, if_pos rfl, get_preserve_self hown]
      simp [Component.retag, Component.visible]
    | false =>
      refine Or.inr ⟨he, rfl, ?_⟩
      rw [get_prune, received, if_neg (by simp), revision]
      cases R.origins.get n with
      | none => rfl
      | some d => simp
  · rw [merge_equal he]
    have hg : (L.prune cutoff).origins.get n = some (L.pruner cutoff c₀) := by
      rw [get_prune, hown]
      rfl
    obtain ⟨d, hd, hle⟩ :=
      get_join_of_some (R := (received n b L R).prune cutoff) (Or.inl hg)
    rw [ensureOwn_of_some hd]
    exact ⟨d, hd, Or.inl (by simpa using hle)⟩
  · rw [merge_lower he, get_prune, hown]
    exact ⟨_, rfl, Or.inl (by simp)⟩

theorem merge_keys :
    (L.merge n b cutoff R).origins.keys ⊆ insert n (L.origins.keys ∪ R.origins.keys) := by
  have hrec : ((received n b L R).prune cutoff).origins.keys ⊆ insert n R.origins.keys := by
    rw [keys_prune, received]
    split
    · unfold preserve
      split
      · exact Finset.subset_insert _ _
      · rw [Dict.keys_insert]
    · exact Finset.subset_insert _ _
  have hR : insert n R.origins.keys ⊆ insert n (L.origins.keys ∪ R.origins.keys) :=
    Finset.insert_subset_insert _ Finset.subset_union_right
  rcases lt_trichotomy L.epoch R.epoch with h | h | h
  · rw [merge_higher h, keys_ensureOwn, Finset.insert_subset_iff]
    exact ⟨Finset.mem_insert_self _ _, hrec.trans hR⟩
  · rw [merge_equal h, keys_ensureOwn, Finset.insert_subset_iff]
    refine ⟨Finset.mem_insert_self _ _, Finset.union_subset ?_ (hrec.trans hR)⟩
    rw [keys_prune]
    exact Finset.subset_union_left.trans (Finset.subset_insert _ _)
  · rw [merge_lower h, keys_prune]
    exact Finset.subset_union_left.trans (Finset.subset_insert _ _)

theorem merge_version (hv : L.epoch = R.epoch → L.versions m = R.versions m) :
    (L.epoch = (L.merge n b cutoff R).epoch ∧ L.versions m = (L.merge n b cutoff R).versions m) ∨
      (R.epoch = (L.merge n b cutoff R).epoch ∧
        R.versions m = (L.merge n b cutoff R).versions m) := by
  rcases lt_trichotomy L.epoch R.epoch with h | h | h
  · rw [merge_higher h]
    exact Or.inr (by simp)
  · rw [merge_equal h]
    simp [join, hv h]
  · rw [merge_lower h]
    exact Or.inl (by simp)

/-! ## What a reconciliation keeps -/

variable {origins : Dict N (Component N M U P)}

theorem reconciled_copies {peer : N} (hL : Tagged m L) (hR : Tagged m R)
    (h : L.reconciled R peer = some origins) (hc : origins.get o = some c) :
    Copies m o c L ∨ Copies m o c R := by
  have hmap : ∀ {x}, (L.origins.map (·.visible L.versions)).get o = some x → Copies m o x L := by
    intro x hx
    obtain ⟨y, hy, rfl⟩ := Dict.get_map_eq_some.mp hx
    exact ⟨y, hy, rfl, visible_token (hL o y hy)⟩
  obtain ⟨d, hd, ⟨rfl, -⟩ | rfl⟩ := reconciled_cases h
  · by_cases ho : o = peer
    · subst ho
      rw [Dict.get_insert_self] at hc
      cases hc
      exact Or.inr ⟨d, hd, rfl, visible_token (hR o d hd)⟩
    · rw [Dict.get_insert_of_ne _ _ ho] at hc
      exact Or.inl (hmap hc)
  · exact Or.inl (hmap hc)

theorem reconciled_own {peer : N} (hown : L.origins.get n = some c₀)
    (h : L.reconciled R peer = some origins) :
    ∃ c, origins.get n = some c ∧ c₀.revision ≤ c.revision := by
  have hmap : (L.origins.map (·.visible L.versions)).get n = some (c₀.visible L.versions) := by
    rw [Dict.get_map, hown]
    rfl
  obtain ⟨d, -, ⟨rfl, hle⟩ | rfl⟩ := reconciled_cases h
  · by_cases hn : n = peer
    · subst hn
      exact ⟨_, Dict.get_insert_self .., hle c₀ hown⟩
    · exact ⟨_, (Dict.get_insert_of_ne _ _ hn).trans hmap, Nat.le_refl _⟩
  · exact ⟨_, hmap, Nat.le_refl _⟩

/-- A reconciliation makes a ledger of a new epoch, in which every model in use has its version. -/
theorem reconcile_spec {peer : N} (h : L.reconcile n peer cutoff R = some K) :
    ∃ origins, (L.prune cutoff).reconciled (R.prune cutoff) peer = some origins ∧
      K.epoch = ⟨max L.epoch.counter R.epoch.counter + 1, some n⟩ ∧
      K.origins.keys = origins.keys ∧
      (∀ o c, K.origins.get o = some c → ∃ d, origins.get o = some d ∧
        c.revision = d.revision ∧ ∀ m, (c.usage m).token = (d.usage m).token) ∧
      (∀ o d, origins.get o = some d → ∃ c, K.origins.get o = some c ∧
        c.revision = d.revision) ∧
      ∀ m, Tagged m K := by
  simp only [reconcile, Option.map_eq_some_iff] at h
  obtain ⟨origins, ho, rfl⟩ := h
  refine ⟨origins, ho, by simp, by simp, fun o c hc => ?_, fun o d hd => ?_, fun m o c hc ht => ?_⟩
  · obtain ⟨x, hx, rfl⟩ := get_prune_some hc
    obtain ⟨d, hd, rfl⟩ := Dict.get_map_eq_some.mp hx
    exact ⟨d, hd, by simp [Component.retag], fun m => by simp [Component.retag]⟩
  · rw [get_prune, Dict.get_map, hd]
    exact ⟨_, rfl, by simp [Component.retag]⟩
  · obtain ⟨x, hx, rfl⟩ := get_prune_some hc
    obtain ⟨d, hd, rfl⟩ := Dict.get_map_eq_some.mp hx
    rw [pruner_token] at ht
    rw [pruner_tags, prune_versions]
    exact retag_tags ht

end Ledger

open Ledger

variable [LinearOrder N]

/-! ## The invariant -/

structure Inv (m : M) (s : World N M U P) : Prop where
  keys : ∀ L, s.Holds L → L.origins.keys ⊆ s.nodes
  own : ∀ n ∈ s.nodes, ∃ c, (s.ledger n).origins.get n = some c
  untouched : ∀ L, s.Holds L → ∀ o c, L.origins.get o = some c → s.recorded o m = none →
    (c.usage m).token = none
  /-- A copy that is not older than its origin's own component holds what was recorded. -/
  current : ∀ L, s.Holds L → ∀ o c c₀, L.origins.get o = some c →
    (s.ledger o).origins.get o = some c₀ → c₀.revision ≤ c.revision →
    (c.usage m).token = s.recorded o m
  tagged : ∀ L, s.Holds L → Tagged m L
  versions : ∀ L K, s.Holds L → s.Holds K → L.epoch = K.epoch → L.versions m = K.versions m
  epochs : s.EpochsBounded
  heard : ∀ x ∈ s.heard, Covers x.1 x.2 (s.ledger x.1)

variable {s : World N M U P} {n : N} {L' : Ledger N M U P} {e : Label N M U P}

/-- The new ledger has the version of its epoch: one that is there, or a new epoch of `n`. -/
def Versioned (m : M) (s : World N M U P) (n : N) (L' : Ledger N M U P) : Prop :=
  (∃ K, s.Holds K ∧ K.epoch = L'.epoch ∧ K.versions m = L'.versions m) ∨
    L'.epoch.node = some n ∧ (s.ledger n).epoch.counter < L'.epoch.counter

omit [LinearOrder N] in
theorem Versioned.dated (h : Versioned m s n L') : s.Dated n L'.epoch :=
  h.imp_left fun ⟨K, hK, he, _⟩ => ⟨K, hK, he⟩

theorem inv_init (nodes : Finset N) (usage : N → M → Entry U P) :
    Inv m (World.init nodes usage) := by
  refine ⟨fun L hL => ?_, fun n _ => ⟨_, Dict.get_insert_self ..⟩, fun L hL o c hc hno => ?_,
    fun L hL o c c₀ hc _ _ => ?_, fun L hL o c hc _ => ?_, fun L K hL hK _ => ?_,
    fun L hL k hk => ?_, fun x hx => by simp [World.init] at hx⟩
  · obtain ⟨n, hn, rfl⟩ := init_holds hL
    intro o ho
    obtain ⟨c, hc⟩ := Dict.mem_keys_iff.mp ho
    rw [(get_fresh hc).1]
    exact hn
  · obtain ⟨n, -, rfl⟩ := init_holds hL
    obtain ⟨rfl, rfl⟩ := get_fresh hc
    exact hno
  · obtain ⟨n, -, rfl⟩ := init_holds hL
    obtain ⟨rfl, rfl⟩ := get_fresh hc
    rfl
  · obtain ⟨n, -, rfl⟩ := init_holds hL
    obtain ⟨-, rfl⟩ := get_fresh hc
    rfl
  · obtain ⟨n, -, rfl⟩ := init_holds hL
    obtain ⟨k, -, rfl⟩ := init_holds hK
    rfl
  · obtain ⟨n, -, rfl⟩ := init_holds hL
    simp [Ledger.fresh, Version.zero] at hk

/-! ## What a settled world counts -/

/-- Every node has merged a snapshot of every other node that has the node's component and epoch as
they are now. -/
def Settled (s : World N M U P) : Prop :=
  ∀ n ∈ s.nodes, ∀ o ∈ s.nodes, o ≠ n → ∃ x ∈ s.heard, x.1 = n ∧
    x.2.epoch = (s.ledger o).epoch ∧ o ∈ x.2.origins.keys ∧
      x.2.revision o = (s.ledger o).revision o

instance (s : World N M U P) : Decidable (Settled s) :=
  inferInstanceAs (Decidable (∀ n ∈ s.nodes, ∀ o ∈ s.nodes, o ≠ n → ∃ x ∈ s.heard, x.1 = n ∧
    x.2.epoch = (s.ledger o).epoch ∧ o ∈ x.2.origins.keys ∧
      x.2.revision o = (s.ledger o).revision o))

theorem Inv.settled_epoch (h : Inv m s) (hs : Settled s) {o : N} (hn : n ∈ s.nodes)
    (ho : o ∈ s.nodes) : (s.ledger o).epoch ≤ (s.ledger n).epoch := by
  by_cases hon : o = n
  · rw [hon]
  · obtain ⟨x, hx, hxn, he, -, -⟩ := hs n hn o ho hon
    have hc := (h.heard x hx).1
    rwa [hxn, he] at hc

/-- In a settled world a node holds what every node recorded. -/
theorem Inv.settled_get (h : Inv m s) (hs : Settled s) {o : N} (hn : n ∈ s.nodes)
    (ho : o ∈ s.nodes) :
    ∃ c, (s.ledger n).origins.get o = some c ∧ (c.usage m).token = s.recorded o m := by
  obtain ⟨c₀, hc₀⟩ := h.own o ho
  by_cases hon : o = n
  · subst hon
    exact ⟨c₀, hc₀, h.current _ (holds_ledger hn) o c₀ c₀ hc₀ hc₀ (Nat.le_refl _)⟩
  · obtain ⟨x, hx, hxn, he, hkey, hrev⟩ := hs n hn o ho hon
    obtain ⟨d, hd⟩ := Dict.mem_keys_iff.mp hkey
    have hcov := h.heard x hx
    rw [hxn] at hcov
    have heq : x.2.epoch = (s.ledger n).epoch :=
      le_antisymm hcov.1 (he ▸ h.settled_epoch hs ho hn)
    obtain ⟨c, hc, hle⟩ := hcov.2 heq o hon d hd
    refine ⟨c, hc, h.current _ (holds_ledger hn) o c c₀ hc hc₀ ?_⟩
    rw [revision_of_get hd, revision_of_get hc₀] at hrev
    omega

theorem Inv.settled_tokens [AddCommMonoid U] (h : Inv m s) (hs : Settled s) (hn : n ∈ s.nodes) :
    (s.ledger n).tokens m = ∑ o ∈ s.nodes, (s.recorded o m).getD 0 := by
  rw [Ledger.tokens, Dict.sum_eq_of_subset (h.keys _ (holds_ledger hn))]
  refine Finset.sum_congr rfl fun o ho => ?_
  obtain ⟨c, hc, ht⟩ := h.settled_get hs hn ho
  rw [hc, ← ht]
  simp only [Option.map_some, Option.getD_some]
  split
  · rfl
  · next hne =>
    -- usage that does not count is none
    have hnone : (c.usage m).token = none := by
      by_contra hsome
      exact hne (h.tagged _ (holds_ledger hn) o c hc hsome)
    rw [hnone]
    rfl

variable [DecidableEq M] [AddCommMonoid U]

/-! ## The condition -/

/-- The step does no harm to what is recorded of `m`. -/
def Keeps (m : M) (s : World N M U P) : Label N M U P → Prop
  | .record n m' _ _ _ _ => m' = m → s.All fun L => L.revision n ≤ (s.ledger n).revision n
  | .snapshot _ _ => True
  | .merge n i reconciling _ =>
    reconciling = false → ∀ x ∈ s.sent[i]?, (s.ledger n).epoch < x.2.epoch →
      (∀ c ∈ (s.ledger n).origins.get n, (c.usage m).token.isNone) ∨
        n ∈ x.2.origins.keys ∧ (s.ledger n).revision n ≤ x.2.revision n
  | .reconcile _ _ _ => True
  | .erase n m' => m' ≠ m ∧
      ∀ o ∈ (s.ledger n).origins.keys, (s.ledger n).revision o + 1 ≠ (s.ledger o).revision o
  | .reset _ => False

instance (s : World N M U P) : ∀ e, Decidable (Keeps m s e)
  | .record n m' _ _ _ _ =>
    inferInstanceAs (Decidable (m' = m → s.All fun L => L.revision n ≤ (s.ledger n).revision n))
  | .snapshot _ _ | .reconcile _ _ _ => isTrue trivial
  | .merge n i reconciling _ =>
    inferInstanceAs (Decidable (reconciling = false → ∀ x ∈ s.sent[i]?,
      (s.ledger n).epoch < x.2.epoch →
        (∀ c ∈ (s.ledger n).origins.get n, (c.usage m).token.isNone) ∨
          n ∈ x.2.origins.keys ∧ (s.ledger n).revision n ≤ x.2.revision n))
  | .erase n m' =>
    inferInstanceAs (Decidable (m' ≠ m ∧ ∀ o ∈ (s.ledger n).origins.keys,
      (s.ledger n).revision o + 1 ≠ (s.ledger o).revision o))
  | .reset _ => isFalse id

/-- Model `m` is not erased, and nothing is reset. -/
def Spares (m : M) : World N M U P → Label N M U P → Prop
  | _, .erase _ m' => m' ≠ m
  | _, .reset _ => False
  | _, _ => True

instance (s : World N M U P) : ∀ e, Decidable (Spares m s e)
  | .erase _ m' => inferInstanceAs (Decidable (m' ≠ m))
  | .record _ _ _ _ _ _ | .snapshot _ _ | .merge _ _ _ _ | .reconcile _ _ _ => isTrue trivial
  | .reset _ => isFalse id

/-! ## What a step owes -/

/-- What was merged before is still covered. -/
theorem Inv.heard_commit (h : Inv m s) (hcov : Covers n (s.ledger n) L')
    (hnew : ∀ x ∈ s.merged e, x.1 = n ∧ Covers n x.2 L') :
    ∀ x ∈ (s.commit e n L').heard, Covers x.1 x.2 ((s.commit e n L').ledger x.1) := by
  intro x hx
  rcases List.mem_append.mp hx with hx | hx
  · have hc := h.heard x hx
    by_cases hxn : x.1 = n
    · rw [hxn, commit_ledger_self]
      rw [hxn] at hc
      exact hc.trans hcov
    · rw [commit_ledger_of_ne _ hxn]
      exact hc
  · obtain ⟨hxn, hc⟩ := hnew x hx
    rw [hxn, commit_ledger_self]
    exact hc

/-- One epoch, one version of `m`. -/
theorem Inv.versions_commit (h : Inv m s)
    (hver : Versioned m s n L') :
    ∀ L K, (s.commit e n L').Holds L → (s.commit e n L').Holds K → L.epoch = K.epoch →
      L.versions m = K.versions m := by
  have hnew : ∀ K, s.Holds K → K.epoch = L'.epoch → K.versions m = L'.versions m := by
    intro K hK he
    rcases hver with ⟨K₀, hK₀, he₀, hv₀⟩ | ⟨hnode, hlt⟩
    · exact (h.versions K K₀ hK hK₀ (he.trans he₀.symm)).trans hv₀
    · exact absurd he (h.epochs.fresh hnode hlt hK)
  intro L K hL hK he
  rcases holds_commit hL with hL' | hL' <;> rcases holds_commit hK with hK' | hK'
  · exact h.versions L K hL' hK' he
  · rw [hK'] at he ⊢
    exact hnew L hL' he
  · rw [hL'] at he ⊢
    exact (hnew K hK' he.symm).symm
  · rw [hL', hK']

/-- **What a step owes**: the own component holds what was recorded, and so does every copy that is
not older than its origin's own one, those that were there before included. -/
theorem Inv.commit (h : Inv m s) (hn : n ∈ s.nodes)
    (hrec : ∀ o, o ≠ n → s.recordedBy e o m = s.recorded o m)
    (hnone : s.recordedBy e n m = none → s.recorded n m = none)
    (hkeys : L'.origins.keys ⊆ s.nodes)
    (hempty : ∀ o c, L'.origins.get o = some c → s.recordedBy e o m = none →
      (c.usage m).token = none)
    (hself : ∃ c, L'.origins.get n = some c ∧ (c.usage m).token = s.recordedBy e n m ∧
      ∀ K d, s.Holds K → K.origins.get n = some d → c.revision ≤ d.revision →
        (d.usage m).token = s.recordedBy e n m)
    (hother : ∀ o c c₀, o ≠ n → L'.origins.get o = some c →
      (s.ledger o).origins.get o = some c₀ → c₀.revision ≤ c.revision →
      (c.usage m).token = s.recorded o m)
    (htag : Tagged m L') (hver : Versioned m s n L') (hcov : Covers n (s.ledger n) L')
    (hheard : ∀ x ∈ s.merged e, x.1 = n ∧ Covers n x.2 L') : Inv m (s.commit e n L') := by
  obtain ⟨y, hy, hyt, hyold⟩ := hself
  refine ⟨fun K hK => ?_, fun k hk => ?_, fun K hK o c hc hno => ?_,
    fun K hK o c c₀ hc hc₀ hle => ?_, fun K hK => ?_, h.versions_commit hver,
    h.epochs.commit hn hcov.1 hver.dated, h.heard_commit hcov hheard⟩
  · rcases holds_commit hK with hK | rfl
    · exact h.keys K hK
    · exact hkeys
  · by_cases hkn : k = n
    · rw [hkn, commit_ledger_self]
      exact ⟨y, hy⟩
    · rw [commit_ledger_of_ne _ hkn]
      exact h.own k hk
  · have hno : s.recordedBy e o m = none := hno
    rcases holds_commit hK with hK | rfl
    · refine h.untouched K hK o c hc ?_
      by_cases hon : o = n
      · rw [hon] at hno ⊢
        exact hnone hno
      · rwa [hrec o hon] at hno
    · exact hempty o c hc hno
  · show _ = s.recordedBy e o m
    by_cases hon : o = n
    · rw [hon] at hc hc₀ ⊢
      rw [commit_ledger_self] at hc₀
      cases hy.symm.trans hc₀
      rcases holds_commit hK with hK | rfl
      · exact hyold K c hK hc hle
      · cases hy.symm.trans hc
        exact hyt
    · rw [hrec o hon]
      rw [commit_ledger_of_ne _ hon] at hc₀
      rcases holds_commit hK with hK | rfl
      · exact h.current K hK o c c₀ hc hc₀ hle
      · exact hother o c c₀ hon hc hc₀ hle
  · rcases holds_commit hK with hK | rfl
    · exact h.tagged K hK
    · exact htag

/-- **A step that only copies components** keeps the invariant: every component of the new ledger
has the revision and the usage of one that is there, and the own one does not become older. -/
theorem Inv.copy (h : Inv m s) (hn : n ∈ s.nodes) (hrec : s.recordedBy e = s.recorded)
    (hkeys : L'.origins.keys ⊆ s.nodes)
    (hcopy : ∀ o c, L'.origins.get o = some c → (∃ K, s.Holds K ∧ Copies m o c K) ∨
      o = n ∧ s.recorded n m = none ∧ (c.usage m).token = none)
    (hown : ∃ c, L'.origins.get n = some c ∧
      (s.recorded n m = none ∨ (s.ledger n).revision n ≤ c.revision))
    (htag : Tagged m L') (hver : Versioned m s n L') (hcov : Covers n (s.ledger n) L')
    (hheard : ∀ x ∈ s.merged e, x.1 = n ∧ Covers n x.2 L') : Inv m (s.commit e n L') := by
  obtain ⟨c₀, hc₀⟩ := h.own n hn
  obtain ⟨y, hy, hyr⟩ := hown
  have hempty : ∀ o c, L'.origins.get o = some c → s.recorded o m = none →
      (c.usage m).token = none := by
    intro o c hc hno
    rcases hcopy o c hc with ⟨K, hK, d, hd, -, ht⟩ | ⟨-, -, ht⟩
    · rw [ht]
      exact h.untouched K hK o d hd hno
    · exact ht
  have hold : ∀ K d, s.Holds K → K.origins.get n = some d → y.revision ≤ d.revision →
      (d.usage m).token = s.recorded n m := by
    intro K d hK hd hle
    rcases hyr with hno | hyr
    · rw [hno]
      exact h.untouched K hK n d hd hno
    · rw [revision_of_get hc₀] at hyr
      exact h.current K hK n d c₀ hd hc₀ (by omega)
  refine h.commit hn (fun o _ => by rw [hrec]) (by rw [hrec]; exact id) hkeys
    (by rw [hrec]; exact hempty) ⟨y, hy, ?_, by rw [hrec]; exact hold⟩ ?_ htag hver hcov hheard
  · rw [hrec]
    rcases hcopy n y hy with ⟨K, hK, d, hd, hrev, ht⟩ | ⟨-, hno, ht⟩
    · rw [ht]
      exact hold K d hK hd (Nat.le_of_eq hrev)
    · rw [ht, hno]
  · intro o c x hon hc hx hle
    rcases hcopy o c hc with ⟨K, hK, d, hd, hrev, ht⟩ | ⟨ho, -⟩
    · rw [ht]
      exact h.current K hK o d x hd hx (by omega)
    · exact absurd ho hon

/-! ## Each step -/

theorem Inv.snapshot (h : Inv m s) (hn : n ∈ s.nodes) (cutoff : ℕ) :
    Inv m (s.commit (.snapshot n cutoff) n ((s.ledger n).prune cutoff)) := by
  have hL := holds_ledger hn
  obtain ⟨c, hc⟩ := h.own n hn
  refine h.copy hn rfl ?_ (fun o c hc => Or.inl ⟨_, hL, copies_of_prune hc⟩) ?_ (h.tagged _ hL).prune
    (Or.inl ⟨_, hL, by simp, by simp⟩) covers_prune (fun x hx => absurd hx (by simp [World.merged]))
  · rw [keys_prune]
    exact h.keys _ hL
  · rw [get_prune, hc]
    exact ⟨_, rfl, Or.inr (by rw [revision_of_get hc, pruner_revision])⟩

variable {x : N × Ledger N M U P}

theorem Inv.merge (h : Inv m s) (hn : n ∈ s.nodes) {i : ℕ} {b : Bool} {cutoff : ℕ}
    (hx : s.sent[i]? = some x) (hk : Keeps m s (.merge n i b cutoff)) :
    Inv m (s.commit (.merge n i b cutoff) n ((s.ledger n).merge n b cutoff x.2)) := by
  have hL := holds_ledger hn
  have hR := holds_sent hx
  obtain ⟨c₀, hc₀⟩ := h.own n hn
  -- adopting a higher epoch whole: nothing was recorded here, or the payload has it
  have hadopt : (s.ledger n).epoch < x.2.epoch → b = false →
      s.recorded n m = none ∨
        n ∈ x.2.origins.keys ∧ (s.ledger n).revision n ≤ x.2.revision n := by
    intro hlt hb
    refine (hk hb x hx hlt).imp_left fun hno => ?_
    have ht := h.current _ hL n c₀ c₀ hc₀ hc₀ (Nat.le_refl _)
    have hz := hno c₀ hc₀
    rw [Option.isNone_iff_eq_none] at hz
    exact ht.symm.trans hz
  have hv := h.versions _ _ hL hR
  refine h.copy hn rfl (merge_keys.trans ?_) ?_ ?_ (merge_tagged (h.tagged _ hL) (h.tagged _ hR) hv)
    ?_ covers_merge.1 ?_
  · rw [Finset.insert_subset_iff]
    exact ⟨hn, Finset.union_subset (h.keys _ hL) (h.keys _ hR)⟩
  · intro o c hc
    rcases merge_copies (h.tagged _ hL) hc₀ hc with hcp | hcp | ⟨ho, ht, hlt, hb, hnone⟩
    · exact Or.inl ⟨_, hL, hcp⟩
    · exact Or.inl ⟨_, hR, hcp⟩
    · refine Or.inr ⟨ho, (hadopt hlt hb).resolve_right fun hkey => ?_, ht⟩
      obtain ⟨d, hd⟩ := Dict.mem_keys_iff.mp hkey.1
      cases hnone.symm.trans hd
  · obtain ⟨c, hc, hcase⟩ : ∃ c, ((s.ledger n).merge n b cutoff x.2).origins.get n = some c ∧
        (c₀.revision ≤ c.revision ∨ (s.ledger n).epoch < x.2.epoch ∧ b = false ∧
          c.revision = x.2.revision n) := merge_own hc₀
    rcases hcase with hle | ⟨hlt, hb, hrev⟩
    · exact ⟨c, hc, Or.inr (by rw [revision_of_get hc₀]; exact hle)⟩
    · refine ⟨c, hc, (hadopt hlt hb).imp_right fun hle => ?_⟩
      rw [hrev]
      exact hle.2
  · rcases merge_version hv with ⟨he, hm⟩ | ⟨he, hm⟩
    · exact Or.inl ⟨_, hL, he, hm⟩
    · exact Or.inl ⟨_, hR, he, hm⟩
  · intro y hy
    simp only [World.merged, hx, Option.map_some, Option.toList_some, List.mem_singleton] at hy
    rw [hy]
    exact ⟨rfl, covers_merge.2⟩

theorem Inv.reconcile (h : Inv m s) (hn : n ∈ s.nodes) {i cutoff : ℕ} {K : Ledger N M U P}
    (hx : s.sent[i]? = some x) (hK : (s.ledger n).reconcile n x.1 cutoff x.2 = some K) :
    Inv m (s.commit (.reconcile n i cutoff) n K) := by
  have hL := holds_ledger hn
  have hR := holds_sent hx
  obtain ⟨c₀, hc₀⟩ := h.own n hn
  obtain ⟨origins, ho, hepoch, hkeys, hcomp, hback, htag⟩ := reconcile_spec hK
  have hlt : (s.ledger n).epoch.counter < K.epoch.counter := by
    rw [hepoch]
    simp only
    omega
  refine h.copy hn rfl ?_ ?_ ?_ (htag m) (Or.inr ⟨by rw [hepoch], hlt⟩)
    (Covers.of_lt (Version.lt_of_counter hlt)) (fun y hy => absurd hy (by simp [World.merged]))
  · rw [hkeys]
    refine (reconciled_keys ho).trans ?_
    rw [keys_prune, keys_prune]
    exact Finset.union_subset (h.keys _ hL) (h.keys _ hR)
  · intro o c hc
    obtain ⟨d, hd, hrev, ht⟩ := hcomp o c hc
    rcases reconciled_copies (h.tagged _ hL).prune (h.tagged _ hR).prune ho hd with hcp | hcp
    · obtain ⟨y, hy, hyr, hyt⟩ := hcp.of_prune
      exact Or.inl ⟨_, hL, y, hy, hrev.trans hyr, (ht m).trans hyt⟩
    · obtain ⟨y, hy, hyr, hyt⟩ := hcp.of_prune
      exact Or.inl ⟨_, hR, y, hy, hrev.trans hyr, (ht m).trans hyt⟩
  · have hp : ((s.ledger n).prune cutoff).origins.get n = some ((s.ledger n).pruner cutoff c₀) := by
      rw [get_prune, hc₀]
      rfl
    obtain ⟨d, hd, hle⟩ := reconciled_own hp ho
    obtain ⟨c, hc, hrev⟩ := hback n d hd
    refine ⟨c, hc, Or.inr ?_⟩
    rw [revision_of_get hc₀, hrev]
    simpa using hle

variable {sample : Option P}

/-- The usage of `m` after a record of it. -/
theorem record_token [Sample P] {versions : M → Version N} {c : Component N M U P} {u : U}
    {hour : ℕ} (h : (c.usage m).token ≠ none → c.tags m = versions m) :
    ((c.record versions m u hour sample).usage m).token
      = some ((c.usage m).token.getD 0 + u) := by
  simp only [Component.record, update_self, Entry.add]
  split
  · rfl
  · next hne =>
    have hnone : (c.usage m).token = none := by
      by_contra ht
      exact hne (h ht)
    rw [hnone]
    rfl

/-- A record keeps the versions and, but for its own component, the components. -/
theorem record_tagged [Sample P] {L : Ledger N M U P} {m' : M} {u : U} {hour cutoff : ℕ}
    {c₀ : Component N M U P} (h : Tagged m L) (hown : L.origins.get n = some c₀) :
    Tagged m (L.record n m' u hour sample cutoff) := by
  intro o c hc ht
  rw [record_versions]
  by_cases ho : o = n
  · subst ho
    rw [get_record_self hown] at hc
    cases hc
    rw [pruner_token] at ht
    rw [pruner_tags]
    by_cases hm : m = m'
    · subst hm
      exact update_self ..
    · simp only [Component.record, update_of_ne hm] at ht ⊢
      exact h o c₀ hown ht
  · rw [get_record_of_ne ho] at hc
    simpa using h.prune o c hc ht

theorem Inv.record [Sample P] (h : Inv m s) (hn : n ∈ s.nodes) {m' : M} {u : U} {hour cutoff : ℕ}
    (hk : Keeps m s (.record n m' u hour sample cutoff)) :
    Inv m (s.commit (.record n m' u hour sample cutoff) n
      ((s.ledger n).record n m' u hour sample cutoff)) := by
  have hL := holds_ledger hn
  obtain ⟨c₀, hc₀⟩ := h.own n hn
  have hown := h.current _ hL n c₀ c₀ hc₀ hc₀ (Nat.le_refl _)
  have hnew : ((s.ledger n).record n m' u hour sample cutoff).origins.get n = some _ :=
    get_record_self hc₀
  -- what the new own component holds of `m`
  have htok : ((c₀.record (s.ledger n).versions m' u hour sample).usage m).token =
      s.recordedBy (.record n m' u hour sample cutoff) n m := by
    simp only [World.recordedBy, update_self]
    by_cases hm : m = m'
    · subst hm
      rw [record_token (h.tagged _ hL n c₀ hc₀), update_self, hown]
    · simp only [Component.record, update_of_ne hm, hown]
  have hother : ∀ {o c}, o ≠ n →
      ((s.ledger n).record n m' u hour sample cutoff).origins.get o = some c →
      Copies m o c (s.ledger n) := by
    intro o c ho hc
    rw [get_record_of_ne ho] at hc
    exact copies_of_prune hc
  refine h.commit hn (fun o ho => ?_) (fun hno => ?_) ?_ (fun o c hc hno => ?_)
    ⟨_, hnew, by rw [pruner_token, htok], fun K d hK hd hle => ?_⟩ (fun o c x ho hc hx hle => ?_)
    (record_tagged (h.tagged _ hL) hc₀) (Or.inl ⟨_, hL, record_epoch.symm, congrFun record_versions.symm m⟩) ?_
    (fun x hx => absurd hx (by simp [World.merged]))
  · simp only [World.recordedBy, update_of_ne ho]
  · by_cases hm : m = m'
    · subst hm
      simp [World.recordedBy] at hno
    · simpa [World.recordedBy, hm] using hno
  · rw [keys_record, Finset.insert_subset_iff]
    exact ⟨hn, h.keys _ hL⟩
  · by_cases ho : o = n
    · subst ho
      rw [hnew] at hc
      cases hc
      rw [pruner_token, htok, hno]
    · obtain ⟨d, hd, -, ht⟩ := hother ho hc
      rw [ht]
      refine h.untouched _ hL o d hd ?_
      simpa only [World.recordedBy, update_of_ne ho] using hno
  · rw [pruner_revision] at hle
    have hle : c₀.revision + 1 ≤ d.revision := hle
    by_cases hm : m = m'
    · -- nobody has a newer component than the one recorded on
      have hmax := (hk hm.symm).holds hK
      rw [revision_of_get hd, revision_of_get hc₀] at hmax
      omega
    · simp only [World.recordedBy, update_self, update_of_ne hm]
      exact h.current K hK n d c₀ hd hc₀ (by omega)
  · obtain ⟨d, hd, hrev, ht⟩ := hother ho hc
    rw [ht]
    exact h.current _ hL o d x hd hx (by omega)
  · refine ⟨le_of_eq record_epoch.symm, fun _ o ho c hc => ?_⟩
    rw [get_record_of_ne ho]
    exact (covers_prune (n := n)).2 (by rw [prune_epoch]) o ho c hc

theorem Inv.erase (h : Inv m s) (hn : n ∈ s.nodes) {m' : M} (hk : Keeps m s (.erase n m')) :
    Inv m (s.commit (.erase n m') n ((s.ledger n).erase n m')) := by
  have hL := holds_ledger hn
  obtain ⟨c₀, hc₀⟩ := h.own n hn
  obtain ⟨hm, hstale⟩ := hk
  -- only the revision of a component changes, as far as `m` is concerned
  have hget : ∀ {o c}, ((s.ledger n).erase n m').origins.get o = some c →
      ∃ d, (s.ledger n).origins.get o = some d ∧ c.revision = d.revision + 1 ∧
        c.tags = d.tags ∧ (c.usage m).token = (d.usage m).token := by
    intro o c hc
    obtain ⟨d, hd, rfl⟩ := Dict.get_map_eq_some.mp hc
    refine ⟨d, hd, rfl, rfl, ?_⟩
    simp only [Component.erase, update_of_ne (Ne.symm hm)]
  have hver : ((s.ledger n).erase n m').versions m = (s.ledger n).versions m :=
    update_of_ne (Ne.symm hm) ..
  have hself : ((s.ledger n).erase n m').origins.get n = some (c₀.erase m') :=
    Dict.get_map_eq_some.mpr ⟨c₀, hc₀, rfl⟩
  refine h.commit hn (fun o _ => rfl) id (fun o ho => h.keys _ hL ho) (fun o c hc hno => ?_)
    ⟨_, hself, ?_, fun K d hK hd hle => ?_⟩ (fun o c x ho hc hx hle => ?_) (fun o c hc ht => ?_)
    (Or.inl ⟨_, hL, rfl, hver.symm⟩) ⟨le_refl _, fun _ o _ c hc => ?_⟩
    (fun x hx => absurd hx (by simp [World.merged]))
  · obtain ⟨d, hd, -, -, ht⟩ := hget hc
    rw [ht]
    exact h.untouched _ hL o d hd hno
  · obtain ⟨d, hd, -, -, ht⟩ := hget hself
    rw [ht]
    exact h.current _ hL n d c₀ hd hc₀ (by rw [Option.some.inj (hd.symm.trans hc₀)])
  · have hle : c₀.revision + 1 ≤ d.revision := hle
    exact h.current K hK n d c₀ hd hc₀ (by omega)
  · obtain ⟨d, hd, hrev, -, ht⟩ := hget hc
    rw [ht]
    have hne := hstale o (Dict.mem_keys_of_get hd)
    rw [revision_of_get hd, revision_of_get hx] at hne
    exact h.current _ hL o d x hd hx (by omega)
  · obtain ⟨d, hd, -, htags, htd⟩ := hget hc
    rw [htags, hver]
    rw [htd] at ht
    exact h.tagged _ hL o d hd ht
  · exact ⟨c.erase m', Dict.get_map_eq_some.mpr ⟨c, hc, rfl⟩, Nat.le_succ _⟩

/-! ## Every run -/

theorem Inv.step [Sample P] {t : World N M U P} (h : Inv m s) (hk : Keeps m s e)
    (hst : step s e = some t) : Inv m t := by
  obtain ⟨n, L, hnext, hn, rfl⟩ := step_eq_some.mp hst
  cases e with
  | record k m' u hour sample cutoff =>
    cases hnext
    exact h.record hn hk
  | snapshot k cutoff =>
    cases hnext
    exact h.snapshot hn cutoff
  | merge k i b cutoff =>
    obtain ⟨x, hx, he⟩ := Option.map_eq_some_iff.mp hnext
    cases he
    exact h.merge hn hx hk
  | reconcile k i cutoff =>
    obtain ⟨x, hx, he⟩ := Option.bind_eq_some_iff.mp hnext
    obtain ⟨K, hK, he⟩ := Option.map_eq_some_iff.mp he
    cases he
    exact h.reconcile hn hx hK
  | erase k m' =>
    cases hnext
    exact h.erase hn hk
  | reset k => exact absurd hk id

theorem inv_reach [Sample P] {nodes : Finset N} {usage : N → M → Entry U P}
    (h : Reach step (Keeps m) (World.init nodes usage) s) : Inv m s :=
  h.invariant (inv_init nodes usage) fun _ _ _ ha hk hst => ha.step hk hst

/-- A request of 5 prompt and 3 completion tokens for model `m` on node `n`. -/
def request (n m : ℕ) : Label ℕ ℕ Stats SpeedSample :=
  .record n m (Stats.ofRequest 5 3 0 none none) 0 (SpeedSample.ofRequest 3 none 0) 0

def twoNodes : World ℕ ℕ Stats SpeedSample := World.init {0, 1} fun _ _ => .empty

end SparkDeck.Usage
