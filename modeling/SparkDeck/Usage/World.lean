import SparkDeck.Lib.Transition
import SparkDeck.Usage.Ledger

/-!
# Nodes that exchange ledgers

The nodes of a cluster, each with its ledger, and the snapshots ever taken. A step is one operation
on one node. A snapshot that was taken may be merged or reconciled by any node at any later time, any
number of times, in any order: the network delays, duplicates and reorders.

Each operation prunes with a cutoff of its own (the clocks of the nodes). The fields under "history"
record what happened and are read by no operation.
-/

namespace SparkDeck.Usage

open Transition Function

variable {N M U P : Type*}

/-- History: a reconciliation gave the models that ledger `source` counts from `origins` the
versions `versions`. -/
structure Carry (N M U P : Type*) where
  source : Ledger N M U P
  origins : Finset N
  versions : M → Version N

structure World (N M U P : Type*) where
  nodes : Finset N
  ledger : N → Ledger N M U P
  /-- The snapshots taken, each with the node that took it. -/
  sent : List (N × Ledger N M U P)
  /-- History: the usage of each model recorded on each node, `none` before the first. -/
  recorded : N → M → Option U
  /-- History: the snapshots merged, each with the node that merged it. -/
  heard : List (N × Ledger N M U P)
  /-- History: what the ledger of a node is made of: the one its last own operation left, and the
  snapshots merged since. -/
  basis : N → List (Ledger N M U P)
  carried : List (Carry N M U P)
  /-- History: the largest cutoff of a pruning. -/
  horizon : ℕ

inductive Label (N M U P : Type*) where
  | record (n : N) (m : M) (u : U) (hour : ℕ) (sample : Option P) (cutoff : ℕ)
  | snapshot (n : N) (cutoff : ℕ)
  /-- Node `n` merges snapshot `i`; `reconciling` when it was sent with `reconcile_origin` `n`. -/
  | merge (n : N) (i : ℕ) (reconciling : Bool) (cutoff : ℕ)
  /-- Controller `n` reconciles snapshot `i` of a joining node. -/
  | reconcile (n : N) (i : ℕ) (cutoff : ℕ)
  | erase (n : N) (m : M)
  | reset (n : N)

/-- The ledger is some node's, or a snapshot. -/
def World.Holds (s : World N M U P) (L : Ledger N M U P) : Prop :=
  (∃ n ∈ s.nodes, s.ledger n = L) ∨ ∃ p ∈ s.sent, p.2 = L

/-- Every ledger there is has `p`. -/
def World.All (s : World N M U P) (p : Ledger N M U P → Prop) : Prop :=
  (∀ n ∈ s.nodes, p (s.ledger n)) ∧ ∀ x ∈ s.sent, p x.2

theorem World.All.holds {s : World N M U P} {p : Ledger N M U P → Prop} (h : s.All p)
    {L : Ledger N M U P} (hL : s.Holds L) : p L := by
  rcases hL with ⟨n, hn, rfl⟩ | ⟨x, hx, rfl⟩
  · exact h.1 n hn
  · exact h.2 x hx

instance (s : World N M U P) (p : Ledger N M U P → Prop) [DecidablePred p] : Decidable (s.All p) :=
  inferInstanceAs (Decidable (_ ∧ _))

theorem holds_ledger {s : World N M U P} {n : N} (h : n ∈ s.nodes) : s.Holds (s.ledger n) :=
  Or.inl ⟨n, h, rfl⟩

theorem holds_sent {s : World N M U P} {i : ℕ} {x : N × Ledger N M U P}
    (h : s.sent[i]? = some x) : s.Holds x.2 :=
  Or.inr ⟨x, List.mem_of_getElem? h, rfl⟩

/-! ## Epochs -/

/-- Nobody is ahead of the node that made an epoch. -/
def World.EpochsBounded (s : World N M U P) : Prop :=
  ∀ L, s.Holds L → ∀ k, L.epoch.node = some k →
    k ∈ s.nodes ∧ L.epoch.counter ≤ (s.ledger k).epoch.counter

/-- A new epoch of node `n`, or one that is there. -/
def World.Dated (s : World N M U P) (n : N) (v : Version N) : Prop :=
  (∃ K, s.Holds K ∧ K.epoch = v) ∨ v.node = some n ∧ (s.ledger n).epoch.counter < v.counter

/-- Nobody has the epoch a node makes. -/
theorem World.EpochsBounded.fresh {s : World N M U P} {n : N} {v : Version N} {K : Ledger N M U P}
    (h : s.EpochsBounded) (hnode : v.node = some n) (hlt : (s.ledger n).epoch.counter < v.counter)
    (hK : s.Holds K) : K.epoch ≠ v := by
  intro he
  have hle := (h K hK n (by rw [he]; exact hnode)).2
  rw [he] at hle
  omega

/-! ## Nodes -/

section

variable [LinearOrder N]

/-- Every node starts with an empty ledger, or with its own counters so far. -/
def World.init (nodes : Finset N) (usage : N → M → Entry U P) : World N M U P where
  nodes := nodes
  ledger n := Ledger.fresh n (usage n)
  sent := []
  recorded n m := (usage n m).token
  heard := []
  basis n := [Ledger.fresh n (usage n)]
  carried := []
  horizon := 0

theorem init_holds {nodes : Finset N} {usage : N → M → Entry U P} {L : Ledger N M U P}
    (h : (World.init nodes usage).Holds L) : ∃ n ∈ nodes, L = Ledger.fresh n (usage n) := by
  rcases h with ⟨n, hn, rfl⟩ | ⟨x, hx, -⟩
  · exact ⟨n, hn, rfl⟩
  · simp [World.init] at hx

variable [DecidableEq M] [AddCommMonoid U]

namespace World

variable (s : World N M U P)

/-- The snapshot a label takes. -/
def taken (n : N) (L : Ledger N M U P) : Label N M U P → List (N × Ledger N M U P)
  | .snapshot _ _ => [(n, L)]
  | _ => []

/-- History: the usage a label records. -/
def recordedBy : Label N M U P → N → M → Option U
  | .record n m u _ _ _ =>
    update s.recorded n
      (update (s.recorded n) m (some ((s.recorded n m).getD 0 + u)))
  | _ => s.recorded

/-- History: the snapshot a label merges. -/
def merged : Label N M U P → List (N × Ledger N M U P)
  | .merge n i _ _ => (s.sent[i]?.map fun x => (n, x.2)).toList
  | _ => []

/-- History: what the new ledger `L` of node `n` is made of. -/
def basisOf (n : N) (L : Ledger N M U P) : Label N M U P → List (Ledger N M U P)
  | .snapshot _ _ => s.basis n
  | .merge _ i _ _ => s.basis n ++ (s.sent[i]?.map (·.2)).toList
  | _ => [L]

/-- History: what a label carries to other versions: a controller its own ledger and the peer's own
component, a node that merges with `reconcile_origin` its own component. -/
def carriedBy : Label N M U P → List (Carry N M U P)
  | .merge n i true _ => (s.sent[i]?.map fun x => ⟨s.ledger n, {n}, x.2.versions⟩).toList
  | .reconcile n i cutoff =>
    (s.sent[i]?.bind fun x => ((s.ledger n).reconcile n x.1 cutoff x.2).map fun K =>
      [⟨s.ledger n, (s.ledger n).origins.keys, K.versions⟩, ⟨x.2, {x.1}, K.versions⟩]).getD []
  | _ => []

/-- The cutoff a label prunes with. -/
def cutoffOf : Label N M U P → ℕ
  | .record _ _ _ _ _ cutoff | .snapshot _ cutoff | .merge _ _ _ cutoff | .reconcile _ _ cutoff =>
    cutoff
  | .erase _ _ | .reset _ => 0

/-- Node `n` has a new ledger. -/
def commit (e : Label N M U P) (n : N) (L : Ledger N M U P) : World N M U P where
  nodes := s.nodes
  ledger := update s.ledger n L
  sent := s.sent ++ taken n L e
  recorded := s.recordedBy e
  heard := s.heard ++ s.merged e
  basis := update s.basis n (s.basisOf n L e)
  carried := s.carried ++ s.carriedBy e
  horizon := max s.horizon (cutoffOf e)

end World

variable {s t : World N M U P} {e : Label N M U P}

theorem commit_ledger_self (n : N) (L : Ledger N M U P) : (s.commit e n L).ledger n = L :=
  update_self ..

theorem commit_ledger_of_ne {k n : N} (L : Ledger N M U P) (h : k ≠ n) :
    (s.commit e n L).ledger k = s.ledger k :=
  update_of_ne h ..

/-- After a step there is one new ledger. -/
theorem holds_commit {n : N} {L K : Ledger N M U P} (h : (s.commit e n L).Holds K) :
    s.Holds K ∨ K = L := by
  rcases h with ⟨k, hk, rfl⟩ | ⟨x, hx, rfl⟩
  · by_cases hkn : k = n
    · exact Or.inr (by rw [hkn, commit_ledger_self])
    · exact Or.inl (Or.inl ⟨k, hk, (commit_ledger_of_ne L hkn).symm⟩)
  · rcases List.mem_append.mp hx with hx | hx
    · exact Or.inl (Or.inr ⟨x, hx, rfl⟩)
    · refine Or.inr ?_
      cases e with
      | snapshot k c => simp only [World.taken, List.mem_singleton] at hx; rw [hx]
      | _ => simp [World.taken] at hx

theorem World.EpochsBounded.commit {n : N} {L' : Ledger N M U P} (h : s.EpochsBounded)
    (hn : n ∈ s.nodes) (hle : (s.ledger n).epoch ≤ L'.epoch) (hdated : s.Dated n L'.epoch) :
    (s.commit e n L').EpochsBounded := by
  have hold : ∀ L, s.Holds L → ∀ k, L.epoch.node = some k →
      k ∈ s.nodes ∧ L.epoch.counter ≤ ((s.commit e n L').ledger k).epoch.counter := by
    intro L hL k hk
    obtain ⟨hmem, hbound⟩ := h L hL k hk
    refine ⟨hmem, ?_⟩
    by_cases hkn : k = n
    · rw [hkn, commit_ledger_self]
      rw [hkn] at hbound
      exact hbound.trans (Version.counter_le hle)
    · rw [commit_ledger_of_ne _ hkn]
      exact hbound
  intro L hL k hk
  rcases holds_commit hL with hL | rfl
  · exact hold L hL k hk
  · rcases hdated with ⟨K, hK, he⟩ | ⟨hnode, -⟩
    · rw [← he] at hk ⊢
      exact hold K hK k hk
    · rw [hnode] at hk
      cases hk
      rw [commit_ledger_self]
      exact ⟨hn, Nat.le_refl _⟩

/-! ## Steps -/

variable [Sample P]

/-- The node a label acts on and its ledger afterwards; `none` when there is no such snapshot, or the
operation raises. -/
def World.next (s : World N M U P) : Label N M U P → Option (N × Ledger N M U P)
  | .record n m u hour sample cutoff => some (n, (s.ledger n).record n m u hour sample cutoff)
  | .snapshot n cutoff => some (n, (s.ledger n).prune cutoff)
  | .merge n i reconciling cutoff =>
    s.sent[i]?.map fun x => (n, (s.ledger n).merge n reconciling cutoff x.2)
  | .reconcile n i cutoff =>
    s.sent[i]?.bind fun x => ((s.ledger n).reconcile n x.1 cutoff x.2).map fun L => (n, L)
  | .erase n m => some (n, (s.ledger n).erase n m)
  | .reset n => some (n, (s.ledger n).reset n)

def step (s : World N M U P) (e : Label N M U P) : Option (World N M U P) :=
  (s.next e).bind fun x => if x.1 ∈ s.nodes then some (s.commit e x.1 x.2) else none

theorem step_eq_some :
    step s e = some t ↔ ∃ n L, s.next e = some (n, L) ∧ n ∈ s.nodes ∧ t = s.commit e n L := by
  unfold step
  rw [Option.bind_eq_some_iff]
  constructor
  · rintro ⟨⟨n, L⟩, hx, ht⟩
    split at ht
    · next hn => exact ⟨n, L, hx, hn, (Option.some.inj ht).symm⟩
    · cases ht
  · rintro ⟨n, L, hx, hn, rfl⟩
    exact ⟨(n, L), hx, by rw [if_pos hn]⟩

theorem nodes_reach {C : World N M U P → Label N M U P → Prop} {nodes : Finset N}
    {usage : N → M → Entry U P} (h : Reach step C (World.init nodes usage) s) :
    s.nodes = nodes := by
  refine h.invariant (P := fun s => s.nodes = nodes) rfl fun a e b ha _ hst => ?_
  obtain ⟨n, L, -, -, rfl⟩ := step_eq_some.mp hst
  exact ha

end

end SparkDeck.Usage
