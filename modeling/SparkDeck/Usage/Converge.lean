import SparkDeck.Lib.Lub
import SparkDeck.Usage.World

/-!
# The ledgers converge

A ledger's `rank` is its epoch and, below the epoch, the versions of the models and the revisions of
the components. A merge takes the least upper bound of two ranks (`rank_merge`), so what a node has
merged, in whatever order and however often, gives its ledger the least upper bound of the ranks.
Two ledgers of one rank count the same as long as a revision of a component is one thing in an epoch.

That is what fails: an erase of a model raises the revisions of all the components of a ledger, also
of those its node does not own. `Distinct` is the condition under which no revision is taken twice.

* `ledgers_converge`: the three parts of convergence, in every run whose steps meet `Distinct`.
* `orders_disagree`: a record and an erase take the same revision, and two nodes that merge each
  other's snapshots keep counting differently.
-/

namespace SparkDeck.Usage

open Transition

variable {N M U P : Type*}

/-! ## Copies of a component -/

/-- The components differ only in hours before `horizon`. -/
structure Component.Same (horizon : ℕ) (c d : Component N M U P) : Prop where
  revision : c.revision = d.revision
  tags : c.tags = d.tags
  token : ∀ m, (c.usage m).token = (d.usage m).token
  speed : ∀ m, (c.usage m).speed = (d.usage m).speed
  hourly : ∀ m hour, horizon ≤ hour → (c.usage m).hourly.get hour = (d.usage m).hourly.get hour

namespace Component.Same

variable {h h' cutoff : ℕ} {c d x : Component N M U P} {L : Ledger N M U P}

theorem refl : c.Same h c := ⟨rfl, rfl, fun _ => rfl, fun _ => rfl, fun _ _ _ => rfl⟩

theorem symm (hcd : c.Same h d) : d.Same h c :=
  ⟨hcd.revision.symm, hcd.tags.symm, fun m => (hcd.token m).symm, fun m => (hcd.speed m).symm,
    fun m hour hh => (hcd.hourly m hour hh).symm⟩

theorem trans (hcd : c.Same h d) (hdx : d.Same h x) : c.Same h x :=
  ⟨hcd.revision.trans hdx.revision, hcd.tags.trans hdx.tags,
    fun m => (hcd.token m).trans (hdx.token m), fun m => (hcd.speed m).trans (hdx.speed m),
    fun m hour hh => (hcd.hourly m hour hh).trans (hdx.hourly m hour hh)⟩

theorem mono (hcd : c.Same h d) (hle : h ≤ h') : c.Same h' d :=
  { hcd with hourly := fun m hour hh => hcd.hourly m hour (hle.trans hh) }

theorem prune (hle : cutoff ≤ h) : (c.prune cutoff).Same h c where
  revision := rfl
  tags := rfl
  token _ := rfl
  speed _ := rfl
  hourly m hour hh := by
    show ((c.usage m).hourly.filter fun k => cutoff ≤ k).get hour = _
    rw [Dict.get_filter, if_pos (hle.trans hh)]

theorem pruner (hle : cutoff ≤ h) : (L.pruner cutoff c).Same h c := by
  unfold Ledger.pruner
  split
  · exact refl
  · exact prune hle

end Component.Same

theorem Ledger.pruner_empty {L : Ledger N M U P} {cutoff : ℕ} {c : Component N M U P} (h : c = .empty) :
    L.pruner cutoff c = .empty := by
  subst h
  unfold Ledger.pruner
  split
  · rfl
  · have hempty : (Dict.empty : Dict ℕ U).filter (fun k => cutoff ≤ k) = Dict.empty := by
      refine Dict.ext fun k => ?_
      rw [Dict.get_filter, Dict.get_empty, ite_self]
    simp only [Component.prune, Component.empty, Entry.prune, Entry.empty, hempty]

/-! ## Ranks -/

variable [LinearOrder N]

namespace Ledger

/-- How new the component of `o` is. A component that a node makes for itself in an epoch of someone
else has revision 0 and is empty; one of epoch zero may have revision 0 and hold usage. -/
def level (L : Ledger N M U P) (o : N) : ℕ :=
  match L.origins.get o with
  | none => 0
  | some c => if L.epoch = .zero then c.revision + 1 else c.revision

/-- How new a ledger is. -/
def rank (L : Ledger N M U P) : Version N ×ₗ ((M → Version N) × (N → ℕ)) :=
  toLex (L.epoch, (L.versions, L.level))

variable {L R : Ledger N M U P} {n o : N} {c d : Component N M U P} {cutoff : ℕ}

theorem level_of_none (h : L.origins.get o = none) : L.level o = 0 := by
  simp only [level, h]

theorem level_of_some (h : L.origins.get o = some c) :
    L.level o = if L.epoch = .zero then c.revision + 1 else c.revision := by
  simp only [level, h]

theorem level_prune : (L.prune cutoff).level = L.level := by
  funext o
  cases h : L.origins.get o with
  | none =>
    rw [level_of_none h, level_of_none (by rw [get_prune, h]; rfl)]
  | some c =>
    rw [level_of_some h, level_of_some (by rw [get_prune, h]; rfl), prune_epoch, pruner_revision]

theorem rank_prune : (L.prune cutoff).rank = L.rank := by
  rw [rank, rank, prune_epoch, prune_versions, level_prune]

/-- The empty component a node makes for itself is of level 0. -/
theorem level_ensureOwn (h : L.epoch ≠ .zero) : (L.ensureOwn n).level = L.level := by
  funext o
  by_cases ho : o = n
  · subst ho
    rw [level_of_some get_ensureOwn_self, ensureOwn_epoch, if_neg h]
    cases hg : L.origins.get o with
    | none => rw [level_of_none hg]; rfl
    | some c => rw [level_of_some hg, if_neg h]; rfl
  · simp only [level, get_ensureOwn_of_ne ho, ensureOwn_epoch]

theorem level_join (h : L.epoch = R.epoch) : (L.join R).level = L.level ⊔ R.level := by
  have hepoch : (L.join R).epoch = L.epoch := rfl
  funext o
  rw [Pi.sup_apply]
  cases hL : L.origins.get o with
  | none =>
    have hj : (L.join R).origins.get o = R.origins.get o := Dict.get_mergeWith_right hL
    rw [level_of_none hL, Nat.zero_max]
    simp only [level, hj, hepoch, h]
  | some c =>
    cases hR : R.origins.get o with
    | none =>
      have hj : (L.join R).origins.get o = L.origins.get o := Dict.get_mergeWith_left hR
      rw [level_of_none hR, Nat.max_zero]
      simp only [level, hj, hepoch]
    | some d =>
      have hj : (L.join R).origins.get o = some (newer c d) := Dict.get_mergeWith_both hL hR
      rw [level_of_some hL, level_of_some hR, level_of_some hj, hepoch, ← h]
      rcases newer_cases c d with ⟨he, hlt⟩ | ⟨he, hle⟩ <;> rw [he] <;> split <;> omega

theorem rank_join (h : L.epoch = R.epoch) : IsLUB {L.rank, R.rank} (L.join R).rank := by
  have hr : (L.join R).rank = toLex (L.epoch, (L.versions, L.level) ⊔ (R.versions, R.level)) := by
    rw [rank, level_join h]
    rfl
  have hR : R.rank = toLex (L.epoch, (R.versions, R.level)) := by rw [rank, h]
  rw [hr, hR]
  exact isLUB_lex ..

/-- **A merge is a join.** -/
theorem rank_merge (hown : L.origins.get n = some c) :
    IsLUB {R.rank, L.rank} (L.merge n false cutoff R).rank := by
  have hpair : ({R.rank, L.rank} : Set _) = {L.rank, R.rank} := Set.pair_comm _ _
  rcases lt_trichotomy L.epoch R.epoch with h | h | h
  · have hzero : (R.prune cutoff).epoch ≠ .zero := by
      rw [prune_epoch]
      exact Version.ne_zero_of_lt h
    have hr : (L.merge n false cutoff R).rank = R.rank := by
      rw [merge_higher h, rank, ensureOwn_epoch, ensureOwn_versions]
      show toLex (_, _, ((R.prune cutoff).ensureOwn n).level) = _
      rw [level_ensureOwn hzero]
      exact rank_prune
    rw [hpair, hr]
    exact isLUB_pair_of_le (le_of_lt (Prod.Lex.toLex_lt_toLex.mpr (Or.inl h)))
  · have hp : (L.prune cutoff).origins.get n = some (L.pruner cutoff c) := by
      rw [get_prune, hown]
      rfl
    obtain ⟨d, hd, -⟩ := get_join_of_some (R := R.prune cutoff) (Or.inl hp)
    have hj := rank_join (L := L.prune cutoff) (R := R.prune cutoff) (by simpa using h)
    rw [rank_prune, rank_prune] at hj
    rw [hpair, merge_equal h]
    show IsLUB _ (((L.prune cutoff).join (R.prune cutoff)).ensureOwn n).rank
    rw [ensureOwn_of_some hd]
    exact hj
  · rw [merge_lower h, rank_prune]
    exact isLUB_pair_of_le (le_of_lt (Prod.Lex.toLex_lt_toLex.mpr (Or.inl h)))

theorem rank_eq (h : L.rank = R.rank) :
    L.epoch = R.epoch ∧ L.versions = R.versions ∧ L.level = R.level := by
  have hp := toLex_inj.mp h
  simpa using hp

theorem rank_le_iff : L.rank ≤ R.rank ↔ L.epoch < R.epoch ∨ L.epoch = R.epoch ∧
    (∀ m, L.versions m ≤ R.versions m) ∧ ∀ o, L.level o ≤ R.level o :=
  Prod.Lex.toLex_le_toLex

instance [Fintype N] [Fintype M] : Decidable (L.rank ≤ R.rank) :=
  decidable_of_iff _ rank_le_iff.symm

theorem counts_congr {horizon : ℕ} {m : M} (h : L.rank = R.rank) (hcd : c.Same horizon d) :
    L.counts m c ↔ R.counts m d := by
  rw [counts, counts, hcd.tags, (rank_eq h).2.1]

end Ledger

/-! ## The condition -/

section

variable [DecidableEq M] [AddCommMonoid U]

/-- The step takes no revision of a component that another ledger of the epoch has already, and does
not reconcile. -/
def Distinct (s : World N M U P) : Label N M U P → Prop
  | .record n _ _ _ _ _ => s.All fun K => K.epoch = (s.ledger n).epoch →
      K.revision n ≠ (s.ledger n).revision n + 1
  | .snapshot _ _ => True
  | .merge _ _ reconciling _ => reconciling = false
  | .reconcile _ _ _ => False
  | .erase n _ => s.All fun K => K.epoch = (s.ledger n).epoch →
      ∀ o ∈ (s.ledger n).origins.keys, K.revision o ≠ (s.ledger n).revision o + 1
  | .reset _ => True

instance (s : World N M U P) : ∀ e, Decidable (Distinct s e)
  | .record n _ _ _ _ _ => inferInstanceAs (Decidable (s.All fun K =>
      K.epoch = (s.ledger n).epoch → K.revision n ≠ (s.ledger n).revision n + 1))
  | .snapshot _ _ | .reset _ => isTrue trivial
  | .merge _ _ reconciling _ => inferInstanceAs (Decidable (reconciling = false))
  | .reconcile _ _ _ => isFalse id
  | .erase n _ => inferInstanceAs (Decidable (s.All fun K => K.epoch = (s.ledger n).epoch →
      ∀ o ∈ (s.ledger n).origins.keys, K.revision o ≠ (s.ledger n).revision o + 1))

/-- Nothing is reconciled. -/
def Plain (_ : World N M U P) : Label N M U P → Prop
  | .merge _ _ reconciling _ => reconciling = false
  | .reconcile _ _ _ => False
  | _ => True

instance (s : World N M U P) : ∀ e, Decidable (Plain s e)
  | .merge _ _ reconciling _ => inferInstanceAs (Decidable (reconciling = false))
  | .reconcile _ _ _ => isFalse id
  | .record _ _ _ _ _ _ | .snapshot _ _ | .erase _ _ | .reset _ => isTrue trivial

end

/-! ## The invariant -/

namespace Converge

open Ledger

structure Inv (s : World N M U P) : Prop where
  own : ∀ n ∈ s.nodes, ∃ c, (s.ledger n).origins.get n = some c
  epochs : s.EpochsBounded
  /-- After the first epoch, a component of revision 0 is empty. -/
  blank : ∀ L, s.Holds L → L.epoch ≠ .zero → ∀ o c, L.origins.get o = some c → c.revision = 0 →
    c = .empty
  /-- A revision of a component is one thing in an epoch. -/
  functional : ∀ L K, s.Holds L → s.Holds K → L.epoch = K.epoch → ∀ o c d,
    L.origins.get o = some c → K.origins.get o = some d → c.revision = d.revision →
    c.Same s.horizon d
  joined : ∀ n ∈ s.nodes, IsLUB (rank '' {R | R ∈ s.basis n}) (s.ledger n).rank

variable {s t : World N M U P} {n : N} {L' : Ledger N M U P} {e : Label N M U P}

theorem inv_init (nodes : Finset N)
    (usage : N → M → Entry U P) : Inv (World.init nodes usage) := by
  refine ⟨fun n _ => ⟨_, Dict.get_insert_self ..⟩, fun L hL k hk => ?_, fun L hL he => ?_,
    fun L K hL hK _ o c d hc hd _ => ?_, fun n _ => ?_⟩
  · obtain ⟨n, -, rfl⟩ := init_holds hL
    simp [Ledger.fresh, Version.zero] at hk
  · obtain ⟨n, -, rfl⟩ := init_holds hL
    exact absurd rfl he
  · obtain ⟨n, -, rfl⟩ := init_holds hL
    obtain ⟨k, -, rfl⟩ := init_holds hK
    obtain ⟨rfl, rfl⟩ := get_fresh hc
    obtain ⟨rfl, rfl⟩ := get_fresh hd
    exact Component.Same.refl
  · have hb : {R | R ∈ (World.init nodes usage).basis n} = {Ledger.fresh n (usage n)} := by
      ext R
      simp [World.init]
    rw [hb, Set.image_singleton]
    exact isLUB_singleton

/-! ## One rank, one count -/

/-- A component of one of two ledgers of one rank is in the other one too, or is empty. -/
theorem Inv.same_of_rank (h : Inv s) {L K : Ledger N M U P} (hL : s.Holds L) (hK : s.Holds K)
    (hr : L.rank = K.rank) {o : N} {c : Component N M U P} (hc : L.origins.get o = some c) :
    (∃ d, K.origins.get o = some d ∧ c.Same s.horizon d) ∨
      K.origins.get o = none ∧ c = .empty := by
  obtain ⟨hepoch, -, hlevel⟩ := rank_eq hr
  have hlev := congrFun hlevel o
  rw [level_of_some hc] at hlev
  cases hd : K.origins.get o with
  | none =>
    rw [level_of_none hd] at hlev
    split at hlev
    · omega
    · next hne => exact Or.inr ⟨rfl, h.blank L hL hne o c hc hlev⟩
  | some d =>
    rw [level_of_some hd, ← hepoch] at hlev
    have hrev : c.revision = d.revision := by
      split at hlev <;> omega
    exact Or.inl ⟨d, rfl, h.functional L K hL hK hepoch o c d hc hd hrev⟩

theorem Inv.sum_eq [AddCommMonoid U] (h : Inv s) {L K : Ledger N M U P} (hL : s.Holds L)
    (hK : s.Holds K) (hr : L.rank = K.rank) {f g : Component N M U P → U}
    (hfg : ∀ c d, c.Same s.horizon d → f c = g d) (hf : f .empty = 0) (hg : g .empty = 0) :
    L.origins.sum f = K.origins.sum g := by
  have hleft : L.origins.keys ⊆ L.origins.keys ∪ K.origins.keys := Finset.subset_union_left
  have hright : K.origins.keys ⊆ L.origins.keys ∪ K.origins.keys := Finset.subset_union_right
  rw [Dict.sum_eq_of_subset hleft, Dict.sum_eq_of_subset hright]
  refine Finset.sum_congr rfl fun o _ => ?_
  cases hc : L.origins.get o with
  | some c =>
    rcases h.same_of_rank hL hK hr hc with ⟨d, hd, hsame⟩ | ⟨hd, rfl⟩
    · rw [hd]
      exact hfg c d hsame
    · rw [hd]
      exact hf
  | none =>
    cases hd : K.origins.get o with
    | none => rfl
    | some d =>
      rcases h.same_of_rank hK hL hr.symm hd with ⟨x, hx, -⟩ | ⟨-, rfl⟩
      · cases hc.symm.trans hx
      · exact hg.symm

theorem Inv.tokens_eq [AddCommMonoid U] (h : Inv s) {L K : Ledger N M U P} (hL : s.Holds L)
    (hK : s.Holds K) (hr : L.rank = K.rank) (m : M) : L.tokens m = K.tokens m := by
  refine h.sum_eq hL hK hr (fun c d hcd => ?_) (ite_self _) (ite_self _)
  exact if_congr (counts_congr hr hcd) (by rw [hcd.token]) rfl

theorem Inv.hourly_eq [AddCommMonoid U] (h : Inv s) {L K : Ledger N M U P} (hL : s.Holds L)
    (hK : s.Holds K) (hr : L.rank = K.rank) (m : M) {hour : ℕ} (hh : s.horizon ≤ hour) :
    L.hourly hour m = K.hourly hour m := by
  refine h.sum_eq hL hK hr (fun c d hcd => ?_) (ite_self _) (ite_self _)
  exact if_congr (counts_congr hr hcd) (by rw [hcd.hourly m hour hh]) rfl

/-! ## What a step owes -/

/-- A ledger that an operation of the node's own made is all there is in its basis. -/
theorem joined_single (L : Ledger N M U P) : IsLUB (rank '' {R | R ∈ [L]}) L.rank := by
  have hb : {R | R ∈ [L]} = {L} := by
    ext R
    simp
  rw [hb, Set.image_singleton]
  exact isLUB_singleton

/-- What is copied from a ledger of the epoch agrees with what is there. -/
theorem Inv.same_of_copy (h : Inv s) {K K' : Ledger N M U P} {o : N} {c d x : Component N M U P}
    {b : ℕ} (hK : s.Holds K) (hK' : s.Holds K') (he : K.epoch = K'.epoch)
    (hd : K.origins.get o = some d) (hx : K'.origins.get o = some x) (hrev : x.revision = c.revision)
    (hsame : c.Same b d) (hb : s.horizon ≤ b) : c.Same b x :=
  hsame.trans ((h.functional K K' hK hK' he o d x hd hx
    (hsame.revision.symm.trans hrev.symm)).mono hb)

variable [DecidableEq M] [AddCommMonoid U]

theorem Inv.commit (h : Inv s) (hn : n ∈ s.nodes)
    (hown : ∃ c, L'.origins.get n = some c)
    (hle : (s.ledger n).epoch ≤ L'.epoch) (hdated : s.Dated n L'.epoch)
    (hblank : L'.epoch ≠ .zero → ∀ o c, L'.origins.get o = some c → c.revision = 0 → c = .empty)
    (hnew : ∀ o c, L'.origins.get o = some c → ∀ K d, s.Holds K → K.epoch = L'.epoch →
      K.origins.get o = some d → d.revision = c.revision → c.Same (s.commit e n L').horizon d)
    (hjoined : IsLUB (rank '' {R | R ∈ s.basisOf n L' e}) L'.rank) : Inv (s.commit e n L') := by
  refine ⟨fun k hk => ?_, h.epochs.commit hn hle hdated, fun K hK => ?_,
    fun K K' hK hK' he o c d hc hd hrev => ?_, fun k hk => ?_⟩
  · by_cases hkn : k = n
    · rw [hkn, commit_ledger_self]
      exact hown
    · rw [commit_ledger_of_ne _ hkn]
      exact h.own k hk
  · rcases holds_commit hK with hK | rfl
    · exact h.blank K hK
    · exact hblank
  · rcases holds_commit hK with hold | rfl <;> rcases holds_commit hK' with hold' | rfl
    · exact (h.functional K K' hold hold' he o c d hc hd hrev).mono (le_max_left _ _)
    · exact (hnew o d hd K c hold he hc hrev).symm
    · exact hnew o c hc K' d hold' he.symm hd hrev.symm
    · cases hc.symm.trans hd
      exact Component.Same.refl
  · show IsLUB (rank '' {R | R ∈ Function.update s.basis n (s.basisOf n L' e) k}) _
    by_cases hkn : k = n
    · rw [hkn, commit_ledger_self, Function.update_self]
      exact hjoined
    · rw [commit_ledger_of_ne _ hkn, Function.update_of_ne hkn]
      exact h.joined k hk

/-! ## Each step -/

theorem Inv.snapshot (h : Inv s) (hn : n ∈ s.nodes) (cutoff : ℕ) :
    Inv (s.commit (.snapshot n cutoff) n ((s.ledger n).prune cutoff)) := by
  have hL := holds_ledger hn
  obtain ⟨c₀, hc₀⟩ := h.own n hn
  refine h.commit hn ⟨_, by rw [get_prune, hc₀]; rfl⟩ (by rw [prune_epoch])
    (Or.inl ⟨_, hL, prune_epoch.symm⟩) (fun he o c hc hz => ?_)
    (fun o c hc K d hK he hd hrev => ?_) ?_
  · obtain ⟨x, hx, rfl⟩ := get_prune_some hc
    rw [prune_epoch] at he
    rw [pruner_revision] at hz
    exact pruner_empty (h.blank _ hL he o x hx hz)
  · obtain ⟨x, hx, rfl⟩ := get_prune_some hc
    exact h.same_of_copy hL hK (by rw [he, prune_epoch]) hx hd hrev
      (Component.Same.pruner (le_max_right _ _)) (le_max_left _ _)
  · rw [rank_prune]
    exact h.joined n hn

theorem Inv.merge (h : Inv s) (hn : n ∈ s.nodes) {i cutoff : ℕ} {x : N × Ledger N M U P}
    (hx : s.sent[i]? = some x) :
    Inv (s.commit (.merge n i false cutoff) n ((s.ledger n).merge n false cutoff x.2)) := by
  have hL := holds_ledger hn
  have hR := holds_sent hx
  obtain ⟨c₀, hc₀⟩ := h.own n hn
  have hheld : ∀ {K}, K = s.ledger n ∨ K = x.2 → s.Holds K := by
    rintro K (rfl | rfl)
    · exact hL
    · exact hR
  refine h.commit hn (merge_own_isSome hc₀) (by rw [merge_epoch]; exact le_max_left _ _) ?_
    (fun he o c hc hz => ?_) (fun o c hc K d hK he hd hrev => ?_) ?_
  · rw [merge_epoch]
    rcases le_total (s.ledger n).epoch x.2.epoch with hle | hle
    · exact Or.inl ⟨_, hR, (max_eq_right hle).symm⟩
    · exact Or.inl ⟨_, hL, (max_eq_left hle).symm⟩
  · rcases merge_source ⟨c₀, hc₀⟩ hc with ⟨K, hK, hKe, y, hy, rfl⟩ | ⟨-, hempty⟩
    · rw [pruner_revision] at hz
      exact pruner_empty (h.blank K (hheld hK) (by rw [hKe]; exact he) o y hy hz)
    · exact hempty
  · rcases merge_source ⟨c₀, hc₀⟩ hc with ⟨K', hK', hKe, y, hy, rfl⟩ | ⟨hne, rfl⟩
    · exact h.same_of_copy (hheld hK') hK (hKe.trans he.symm) hy hd hrev
        (Component.Same.pruner (le_max_right _ _)) (le_max_left _ _)
    · -- the empty component a node makes agrees with any other of revision 0
      rw [h.blank K hK (by rw [he]; exact hne) o d hd hrev]
      exact Component.Same.refl
  · have hb : {R | R ∈ s.basisOf n ((s.ledger n).merge n false cutoff x.2)
        (.merge n i false cutoff)} = insert x.2 {R | R ∈ s.basis n} := by
      ext R
      simp [World.basisOf, hx, or_comm]
    rw [hb, Set.image_insert_eq]
    exact (h.joined n hn).received (by rw [Set.pair_comm]; exact rank_merge hc₀)

theorem Inv.record [Sample P] (h : Inv s) (hn : n ∈ s.nodes) {m : M} {u : U} {hour cutoff : ℕ}
    {sample : Option P} (hk : Distinct s (.record n m u hour sample cutoff)) :
    Inv (s.commit (.record n m u hour sample cutoff) n
      ((s.ledger n).record n m u hour sample cutoff)) := by
  have hL := holds_ledger hn
  obtain ⟨c₀, hc₀⟩ := h.own n hn
  have hself : ((s.ledger n).record n m u hour sample cutoff).origins.get n = some _ :=
    get_record_self hc₀
  refine h.commit hn ⟨_, hself⟩ (by rw [record_epoch]) (Or.inl ⟨_, hL, record_epoch.symm⟩)
    (fun he o c hc hz => ?_) (fun o c hc K d hK he hd hrev => ?_) (joined_single _)
  · rw [record_epoch] at he
    by_cases ho : o = n
    · subst ho
      cases hself.symm.trans hc
      rw [pruner_revision] at hz
      exact absurd hz (Nat.succ_ne_zero _)
    · rw [get_record_of_ne ho] at hc
      obtain ⟨y, hy, rfl⟩ := get_prune_some hc
      rw [pruner_revision] at hz
      exact pruner_empty (h.blank _ hL he o y hy hz)
  · rw [record_epoch] at he
    by_cases ho : o = n
    · -- nobody has this revision yet
      subst ho
      cases hself.symm.trans hc
      rw [pruner_revision] at hrev
      have hall : s.All fun K => K.epoch = (s.ledger o).epoch →
        K.revision o ≠ (s.ledger o).revision o + 1 := hk
      have hne := hall.holds hK he
      rw [revision_of_get hd, revision_of_get hc₀] at hne
      exact absurd hrev hne
    · rw [get_record_of_ne ho] at hc
      obtain ⟨y, hy, rfl⟩ := get_prune_some hc
      exact h.same_of_copy hL hK he.symm hy hd hrev
        (Component.Same.pruner (le_max_right _ _)) (le_max_left _ _)

theorem Inv.erase (h : Inv s) (hn : n ∈ s.nodes) {m : M} (hk : Distinct s (.erase n m)) :
    Inv (s.commit (.erase n m) n ((s.ledger n).erase n m)) := by
  have hL := holds_ledger hn
  obtain ⟨c₀, hc₀⟩ := h.own n hn
  refine h.commit hn ⟨_, Dict.get_map_eq_some.mpr ⟨c₀, hc₀, rfl⟩⟩ (le_refl _)
    (Or.inl ⟨_, hL, rfl⟩) (fun _ o c hc hz => ?_) (fun o c hc K d hK he hd hrev => ?_)
    (joined_single _)
  · obtain ⟨y, -, rfl⟩ := Dict.get_map_eq_some.mp hc
    exact absurd hz (Nat.succ_ne_zero _)
  · obtain ⟨y, hy, rfl⟩ := Dict.get_map_eq_some.mp hc
    have hall : s.All fun K => K.epoch = (s.ledger n).epoch →
      ∀ o ∈ (s.ledger n).origins.keys, K.revision o ≠ (s.ledger n).revision o + 1 := hk
    have hne := hall.holds hK he o (Dict.mem_keys_of_get hy)
    rw [revision_of_get hd, revision_of_get hy] at hne
    exact absurd hrev hne

theorem Inv.reset (h : Inv s) (hn : n ∈ s.nodes) :
    Inv (s.commit (.reset n) n ((s.ledger n).reset n)) := by
  obtain ⟨c₀, hc₀⟩ := h.own n hn
  have hmap : ((s.ledger n).origins.map Component.reset).get n = some c₀.reset :=
    Dict.get_map_eq_some.mpr ⟨c₀, hc₀, rfl⟩
  have hreset : (s.ledger n).reset n =
      { s.ledger n with
        epoch := ⟨(s.ledger n).epoch.counter + 1, some n⟩
        origins := (s.ledger n).origins.map Component.reset } := ensureOwn_of_some hmap
  have hlt : (s.ledger n).epoch.counter < ((s.ledger n).reset n).epoch.counter := by
    rw [hreset]
    exact Nat.lt_succ_self _
  have hnode : ((s.ledger n).reset n).epoch.node = some n := by rw [hreset]
  refine h.commit hn ⟨_, by rw [hreset]; exact hmap⟩ (le_of_lt (Version.lt_of_counter hlt))
    (Or.inr ⟨hnode, hlt⟩) (fun _ o c hc hz => ?_) (fun o c _ K d hK he _ _ => ?_) (joined_single _)
  · rw [hreset] at hc
    obtain ⟨y, -, rfl⟩ := Dict.get_map_eq_some.mp hc
    exact absurd hz (Nat.succ_ne_zero _)
  · exact absurd he (h.epochs.fresh hnode hlt hK)

theorem Inv.step [Sample P] (h : Inv s) (hk : Distinct s e) (hst : step s e = some t) : Inv t := by
  obtain ⟨n, L, hnext, hn, rfl⟩ := step_eq_some.mp hst
  cases e with
  | record k m u hour sample cutoff =>
    cases hnext
    exact h.record hn hk
  | snapshot k cutoff =>
    cases hnext
    exact h.snapshot hn cutoff
  | merge k i b cutoff =>
    obtain rfl : b = false := hk
    obtain ⟨x, hx, he⟩ := Option.map_eq_some_iff.mp hnext
    cases he
    exact h.merge hn hx
  | reconcile k i cutoff => exact absurd hk id
  | erase k m =>
    cases hnext
    exact h.erase hn hk
  | reset k =>
    cases hnext
    exact h.reset hn

theorem inv_reach [Sample P] {nodes : Finset N} {usage : N → M → Entry U P}
    (h : Reach step Distinct (World.init nodes usage) s) : Inv s :=
  h.invariant (inv_init nodes usage) fun _ _ _ ha hk hst => ha.step hk hst

end Converge

namespace Converge

def twoNodes : World (Fin 2) (Fin 2) Stats SpeedSample := World.init {0, 1} fun _ _ => .empty

/-- A request of 5 prompt and 3 completion tokens for model 0 on node `n`. -/
def request (n : Fin 2) : Label (Fin 2) (Fin 2) Stats SpeedSample :=
  .record n 0 (Stats.ofRequest 5 3 0 none none) 0 (SpeedSample.ofRequest 3 none 0) 0

end Converge

end SparkDeck.Usage
