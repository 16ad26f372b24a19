import Mathlib.Algebra.Order.Ring.Rat
import Mathlib.Data.Prod.Lex
import SparkDeck.Lib.Dict

/-!
# The token-usage ledger

Model of the ledger `Manager.token_usage_sync` and of the operations that change it
(`manager.py:13356-13810` and `:15851-15900`).

A ledger holds one component for each controller node ("origin"). The dictionaries of a component
that are keyed by model (`token_stats`, `hourly_token_stats`, `speed_samples`) are read together: an
`Entry` is what a component holds for one model. Versions default to `[0, ""]`
(`_usage_version_key`), so `model_epochs` is a total function. Usage is any commutative monoid `U`
(`Stats` is the one of the source) and a speed sample any `P` with a token count: the operations only
add, copy and drop usage. Hours
are counted, not spelled, and `cutoff` is the oldest hour kept by the pruning that each operation
does first.

`record`, `snapshot`, `merge`, `reconcile`, `reset` and `erase` are
`_record_local_synced_tokens`, `token_usage_sync_snapshot`, `merge_token_usage_sync`,
`reconcile_token_usage_sync`, `_reset_synced_token_usage` and `_erase_synced_usage_model`; `tokens`,
`hourly` and `speed` are what `_rebuild_synced_token_usage` and `rolling_generation_speed` count.
-/

namespace SparkDeck.Usage

open Function

/-! ## Versions -/

/-- `[counter, node]`; `none` is the empty node name. -/
structure Version (N : Type*) where
  counter : ℕ
  node : Option N
  deriving DecidableEq

namespace Version

variable {N : Type*}

/-- `_usage_version_key`, compared as a tuple. -/
def key (v : Version N) : ℕ ×ₗ WithBot N := toLex (v.counter, v.node)

theorem key_injective : Injective (key : Version N → ℕ ×ₗ WithBot N) := by
  rintro ⟨c, n⟩ ⟨c', n'⟩ h
  have h' : (c, n) = (c', n') := toLex.injective h
  simpa using h'

instance [LinearOrder N] : LinearOrder (Version N) := LinearOrder.lift' key key_injective

/-- `[0, ""]`. -/
def zero : Version N := ⟨0, none⟩

variable [LinearOrder N] {v w : Version N}

theorem lt_of_counter (h : v.counter < w.counter) : v < w :=
  Prod.Lex.toLex_lt_toLex.mpr (Or.inl h)

theorem ne_zero_of_lt (h : v < w) : w ≠ zero := by
  rintro rfl
  rcases Prod.Lex.toLex_lt_toLex.mp (show v.key < zero.key from h) with hlt | ⟨-, hlt⟩
  · exact Nat.not_lt_zero _ hlt
  · exact WithBot.not_lt_bot _ hlt

theorem counter_le (h : v ≤ w) : v.counter ≤ w.counter := by
  rcases Prod.Lex.toLex_le_toLex.mp (show v.key ≤ w.key from h) with hlt | ⟨he, -⟩
  · exact Nat.le_of_lt hlt
  · exact Nat.le_of_eq he

end Version

/-! ## Components -/

/-- The counters of a usage record. -/
inductive Counter where
  | input
  | output
  | cached
  | requests
  | genTokens
  | genTime
  | ppTokens
  | ppTime

/-- A usage record; a missing counter is 0, and records are summed counter by counter. -/
abbrev Stats := Counter → ℚ

/-- What `add` adds to a record for one request. -/
def Stats.ofRequest (prompt completion cached : ℕ) (genTime ppTime : Option ℚ) : Stats
  | .input => prompt
  | .output => completion
  | .cached => cached
  | .requests => 1
  | .genTokens => if 0 < genTime.getD 0 ∧ 0 < completion then completion else 0
  | .genTime => if 0 < genTime.getD 0 ∧ 0 < completion then genTime.getD 0 else 0
  | .ppTokens => if 0 < ppTime.getD 0 ∧ 0 < prompt - cached then (prompt - cached : ℕ) else 0
  | .ppTime => if 0 < ppTime.getD 0 ∧ 0 < prompt - cached then ppTime.getD 0 else 0

/-- A speed sample, of which only the token count matters to the ledger. -/
class Sample (P : Type*) where
  tokens : P → ℕ

structure SpeedSample where
  tokens : ℕ
  startedAt : ℚ
  endedAt : ℚ

instance : Sample SpeedSample := ⟨SpeedSample.tokens⟩

/-- The sample of a request, if its decode window was measured. -/
def SpeedSample.ofRequest (completion : ℕ) (genTime : Option ℚ) (endedAt : ℚ) :
    Option SpeedSample :=
  if 0 < genTime.getD 0 ∧ 0 < completion then
    some ⟨completion, endedAt - genTime.getD 0, endedAt⟩
  else none

/-- `USAGE_SPEED_WINDOW_TOKENS` and the cap on the number of samples. -/
def speedWindowTokens : ℕ := 1000000
def speedSampleCap : ℕ := 250000

variable {N M U P : Type*}

/-- The newest samples, newest first, until they cover the window or the cap. -/
def retainNewest [Sample P] : ℕ → ℕ → List P → List P
  | _, _, [] => []
  | count, total, p :: ps =>
    if speedWindowTokens ≤ total + Sample.tokens p ∨ speedSampleCap ≤ count + 1 then [p]
    else p :: retainNewest (count + 1) (total + Sample.tokens p) ps

/-- `_append_speed_sample`; `none` is a request without a measured decode window. -/
def appendSample [Sample P] (samples : Option (List P)) : Option P → Option (List P)
  | none => samples
  | some p => some (retainNewest 0 0 (samples.getD [] ++ [p]).reverse).reverse

/-- What a component holds for one model. -/
structure Entry (U P : Type*) where
  token : Option U
  hourly : Dict ℕ U
  speed : Option (List P)

namespace Entry

def empty : Entry U P := ⟨none, Dict.empty, none⟩

/-- The model is one of `_usage_component_models`. -/
def present (x : Entry U P) : Bool :=
  x.token.isSome || x.speed.isSome || !decide (x.hourly.keys = ∅)

/-- `_prune_hourly_usage`. -/
def prune (cutoff : ℕ) (x : Entry U P) : Entry U P :=
  { x with hourly := x.hourly.filter fun h => cutoff ≤ h }

/-- `add`, for the totals and for the hour, and the speed sample. -/
def add [AddCommMonoid U] [Sample P] (x : Entry U P) (u : U) (hour : ℕ) (sample : Option P) :
    Entry U P where
  token := some (x.token.getD 0 + u)
  hourly := x.hourly.insert hour ((x.hourly.get hour).getD 0 + u)
  speed := appendSample x.speed sample

end Entry

/-- The component of one origin. -/
structure Component (N M U P : Type*) where
  revision : ℕ
  /-- `model_epochs`. -/
  tags : M → Version N
  usage : M → Entry U P

namespace Component

def empty : Component N M U P := ⟨0, fun _ => .zero, fun _ => .empty⟩

def prune (cutoff : ℕ) (c : Component N M U P) : Component N M U P :=
  { c with usage := fun m => (c.usage m).prune cutoff }

/-- Everything of model `m` goes, and the component counts as newer. -/
def erase [DecidableEq M] (m : M) (c : Component N M U P) : Component N M U P :=
  { c with revision := c.revision + 1, usage := update c.usage m .empty }

/-- The lifetime counters go; the hours stay. -/
def reset (c : Component N M U P) : Component N M U P :=
  { c with
    revision := c.revision + 1
    usage := fun m => { c.usage m with token := none, speed := none } }

/-- `_visible_usage_component`, with the ledger's `model_epochs`. -/
def visible [DecidableEq N] (versions : M → Version N) (c : Component N M U P) :
    Component N M U P where
  revision := c.revision
  tags m := if (c.usage m).present ∧ c.tags m ≠ versions m then .zero else c.tags m
  usage m := if (c.usage m).present ∧ c.tags m ≠ versions m then .empty else c.usage m

/-- A reconciliation rewrites the version of every model the component holds. -/
def retag (versions : M → Version N) (c : Component N M U P) : Component N M U P :=
  { c with tags := fun m => if (c.usage m).present then versions m else c.tags m }

/-- The local part of `_record_local_synced_tokens`: a component of an older model version starts
over. -/
def record [DecidableEq N] [DecidableEq M] [AddCommMonoid U] [Sample P]
    (versions : M → Version N) (m : M) (u : U) (hour : ℕ) (sample : Option P)
    (c : Component N M U P) : Component N M U P :=
  let x := if c.tags m = versions m then c.usage m else ⟨some 0, Dict.empty, none⟩
  { revision := c.revision + 1
    tags := update c.tags m (versions m)
    usage := update c.usage m (x.add u hour sample) }

end Component

/-! ## Ledgers -/

structure Ledger (N M U P : Type*) where
  epoch : Version N
  /-- `model_epochs`. -/
  versions : M → Version N
  origins : Dict N (Component N M U P)
  /-- `hourly_retention_cutoff`. -/
  cutoff : Option ℕ

namespace Ledger

/-- `_load_token_usage_sync`: an installation's counters so far are its own component. -/
def fresh [DecidableEq N] (n : N) (usage : M → Entry U P) : Ledger N M U P where
  epoch := .zero
  versions _ := .zero
  origins := Dict.empty.insert n ⟨0, fun _ => .zero, usage⟩
  cutoff := none

theorem get_fresh [DecidableEq N] {n o : N} {usage : M → Entry U P} {c : Component N M U P}
    (h : (fresh n usage).origins.get o = some c) : o = n ∧ c = ⟨0, fun _ => .zero, usage⟩ := by
  rw [fresh, Dict.get_insert] at h
  split at h
  · next ho => exact ⟨ho, (Option.some.inj h).symm⟩
  · simp at h

/-- `_prune_usage_ledger`. -/
def prune (cutoff : ℕ) (L : Ledger N M U P) : Ledger N M U P :=
  if L.cutoff = some cutoff then L
  else { L with origins := L.origins.map (·.prune cutoff), cutoff := some cutoff }

section

variable {L : Ledger N M U P} {o : N} {cutoff : ℕ} {c : Component N M U P} {m : M}

/-- What a pruning does to a component of `L`: nothing, if `L` was pruned with this cutoff last. -/
def pruner (L : Ledger N M U P) (cutoff : ℕ) (c : Component N M U P) : Component N M U P :=
  if L.cutoff = some cutoff then c else c.prune cutoff

@[simp] theorem pruner_revision : (L.pruner cutoff c).revision = c.revision := by
  unfold pruner
  split <;> rfl

@[simp] theorem pruner_tags : (L.pruner cutoff c).tags = c.tags := by
  unfold pruner
  split <;> rfl

@[simp] theorem pruner_token : ((L.pruner cutoff c).usage m).token = (c.usage m).token := by
  unfold pruner
  split <;> rfl

@[simp] theorem prune_epoch : (L.prune cutoff).epoch = L.epoch := by
  unfold prune
  split <;> rfl

@[simp] theorem prune_versions : (L.prune cutoff).versions = L.versions := by
  unfold prune
  split <;> rfl

@[simp] theorem prune_cutoff : (L.prune cutoff).cutoff = some cutoff := by
  unfold prune
  split
  · assumption
  · rfl

theorem prune_origins : (L.prune cutoff).origins = L.origins.map (L.pruner cutoff) := by
  unfold prune
  split
  · next h =>
    refine Dict.ext fun k => ?_
    rw [Dict.get_map, show L.pruner cutoff = id from funext fun c => if_pos h, Option.map_id, id]
  · next h => rw [show L.pruner cutoff = Component.prune cutoff from funext fun c => if_neg h]

theorem get_prune : (L.prune cutoff).origins.get o = (L.origins.get o).map (L.pruner cutoff) := by
  rw [prune_origins, Dict.get_map]

theorem get_prune_some (h : (L.prune cutoff).origins.get o = some c) :
    ∃ d, L.origins.get o = some d ∧ L.pruner cutoff d = c := by
  rw [get_prune, Option.map_eq_some_iff] at h
  exact h

@[simp] theorem keys_prune : (L.prune cutoff).origins.keys = L.origins.keys := by
  rw [prune_origins, Dict.keys_map]

end

/-- Of two components of one origin, the remote one only if its revision is higher. -/
def newer (c d : Component N M U P) : Component N M U P :=
  if c.revision < d.revision then d else c

/-- Of two copies of an origin a merge keeps one that is not older than the other. -/
theorem newer_cases (c d : Component N M U P) :
    newer c d = d ∧ c.revision < d.revision ∨ newer c d = c ∧ d.revision ≤ c.revision := by
  unfold newer
  split
  · next h => exact Or.inl ⟨rfl, h⟩
  · next h => exact Or.inr ⟨rfl, Nat.le_of_not_lt h⟩

/-- The revision of the component of origin `o`; 0 when there is none. -/
def revision (L : Ledger N M U P) (o : N) : ℕ :=
  ((L.origins.get o).map Component.revision).getD 0

theorem revision_of_get {L : Ledger N M U P} {o : N} {c : Component N M U P}
    (h : L.origins.get o = some c) : L.revision o = c.revision := by
  rw [Ledger.revision, h]
  rfl

variable [LinearOrder N]

/-- `_record_local_synced_tokens` on node `n`. -/
def record [DecidableEq M] [AddCommMonoid U] [Sample P] (n : N) (m : M) (u : U) (hour : ℕ)
    (sample : Option P) (cutoff : ℕ) (L : Ledger N M U P) : Ledger N M U P :=
  let c := (L.origins.get n).getD .empty
  { L with origins := L.origins.insert n (c.record L.versions m u hour sample) }.prune cutoff

/-- `_erase_synced_usage_model` on node `n`. -/
def erase [DecidableEq M] (n : N) (m : M) (L : Ledger N M U P) : Ledger N M U P :=
  { L with
    versions := update L.versions m ⟨(L.versions m).counter + 1, some n⟩
    origins := L.origins.map (·.erase m) }

/-- The node's own component is there. -/
def ensureOwn (n : N) (L : Ledger N M U P) : Ledger N M U P :=
  match L.origins.get n with
  | some _ => L
  | none => { L with origins := L.origins.insert n .empty }

/-- `_reset_synced_token_usage` on node `n`. -/
def reset (n : N) (L : Ledger N M U P) : Ledger N M U P :=
  { L with
    epoch := ⟨L.epoch.counter + 1, some n⟩
    origins := L.origins.map Component.reset }.ensureOwn n

/-- The branch of `merge_token_usage_sync` for equal epochs. -/
def join (L R : Ledger N M U P) : Ledger N M U P :=
  { L with
    versions := fun m => max (L.versions m) (R.versions m)
    origins := L.origins.mergeWith newer R.origins }

/-- `_preserve_local_origin_during_reconciliation` on node `n` with ledger `L`. -/
def preserve (n : N) (L R : Ledger N M U P) : Ledger N M U P :=
  match L.origins.get n with
  | none => R
  | some c =>
    { R with origins := R.origins.insert n ((c.visible L.versions).retag R.versions) }

/-- The ledger a merge reads: the payload's, with the own component put back when its
`reconcile_origin` is `n`. -/
def received (n : N) (reconciling : Bool) (L R : Ledger N M U P) : Ledger N M U P :=
  if reconciling then L.preserve n R else R

/-- `merge_token_usage_sync` on node `n`. -/
def merge (n : N) (reconciling : Bool) (cutoff : ℕ) (L R : Ledger N M U P) : Ledger N M U P :=
  let R := (received n reconciling L R).prune cutoff
  let L := L.prune cutoff
  if L.epoch < R.epoch then R.ensureOwn n
  else if R.epoch < L.epoch then L
  else (L.join R).ensureOwn n

/-- The components a reconciliation on a controller keeps: those it has, and the peer's own one if
it is not older. -/
def reconciled (L R : Ledger N M U P) (peer : N) : Option (Dict N (Component N M U P)) :=
  match R.origins.get peer with
  | none => none
  | some c =>
    let origins := L.origins.map (·.visible L.versions)
    let remote := c.visible R.versions
    match origins.get peer with
    | none => some (origins.insert peer remote)
    | some current =>
      if current.revision ≤ remote.revision then some (origins.insert peer remote)
      else some origins

/-- The version a reconciliation on node `n` gives model `m`: a new one, if it is in use. -/
def reconciledVersion (n : N) (L : Ledger N M U P) (origins : Dict N (Component N M U P)) (m : M) :
    Version N :=
  if origins.any fun c => (c.usage m).present then
    ⟨max (L.versions m).counter (origins.sup fun c => (c.tags m).counter) + 1, some n⟩
  else L.versions m

/-- `reconcile_token_usage_sync` on node `n` with the ledger of `peer`; `none` when it raises. -/
def reconcile (n peer : N) (cutoff : ℕ) (L R : Ledger N M U P) : Option (Ledger N M U P) :=
  let R := R.prune cutoff
  let L := L.prune cutoff
  (L.reconciled R peer).map fun origins =>
    let versions := L.reconciledVersion n origins
    prune cutoff
      { epoch := ⟨max L.epoch.counter R.epoch.counter + 1, some n⟩
        versions := versions
        origins := origins.map (·.retag versions)
        cutoff := none }

/-! ## What a ledger counts -/

/-- A component counts for model `m` when its version is the ledger's. -/
def counts (L : Ledger N M U P) (m : M) (c : Component N M U P) : Prop := c.tags m = L.versions m

instance (L : Ledger N M U P) (m : M) (c : Component N M U P) : Decidable (L.counts m c) :=
  inferInstanceAs (Decidable (c.tags m = L.versions m))

/-- `token_stats[m]`. -/
def tokens [AddCommMonoid U] (L : Ledger N M U P) (m : M) : U :=
  L.origins.sum fun c => if L.counts m c then (c.usage m).token.getD 0 else 0

/-- `hourly_token_stats[hour][m]`. -/
def hourly [AddCommMonoid U] (L : Ledger N M U P) (hour : ℕ) (m : M) : U :=
  L.origins.sum fun c => if L.counts m c then ((c.usage m).hourly.get hour).getD 0 else 0

/-- The samples of origin `o` that `rolling_generation_speed` reads for model `m`. -/
def speed (L : Ledger N M U P) (o : N) (m : M) : List P :=
  match L.origins.get o with
  | some c => if L.counts m c then (c.usage m).speed.getD [] else []
  | none => []

/-! ## What the operations look up -/

section

variable {L R : Ledger N M U P} {n o : N} {cutoff : ℕ} {c : Component N M U P} {m : M}

theorem ensureOwn_of_some (h : L.origins.get n = some c) : L.ensureOwn n = L := by
  simp only [ensureOwn, h]

@[simp] theorem ensureOwn_epoch : (L.ensureOwn n).epoch = L.epoch := by
  unfold ensureOwn
  split <;> rfl

@[simp] theorem ensureOwn_versions : (L.ensureOwn n).versions = L.versions := by
  unfold ensureOwn
  split <;> rfl

theorem get_ensureOwn_of_ne (h : o ≠ n) : (L.ensureOwn n).origins.get o = L.origins.get o := by
  unfold ensureOwn
  split
  · rfl
  · exact Dict.get_insert_of_ne _ _ h

theorem get_ensureOwn_self :
    (L.ensureOwn n).origins.get n = some ((L.origins.get n).getD .empty) := by
  unfold ensureOwn
  split
  · next c h => rw [h]; rfl
  · next h => rw [h]; exact Dict.get_insert_self ..

theorem get_ensureOwn_cases (h : (L.ensureOwn n).origins.get o = some c) :
    L.origins.get o = some c ∨ c = .empty := by
  by_cases ho : o = n
  · subst ho
    rw [get_ensureOwn_self] at h
    cases hg : L.origins.get o with
    | none => exact Or.inr (by rw [hg] at h; exact (Option.some.inj h).symm)
    | some d => exact Or.inl (by rw [hg] at h; exact h)
  · rw [get_ensureOwn_of_ne ho] at h
    exact Or.inl h

theorem keys_ensureOwn : (L.ensureOwn n).origins.keys = insert n L.origins.keys := by
  unfold ensureOwn
  split
  · next c h => rw [Finset.insert_eq_of_mem (Dict.mem_keys_of_get h)]
  · rfl

@[simp] theorem preserve_epoch : (L.preserve n R).epoch = R.epoch := by
  unfold preserve
  split <;> rfl

@[simp] theorem preserve_versions : (L.preserve n R).versions = R.versions := by
  unfold preserve
  split <;> rfl

theorem get_preserve_of_ne (h : o ≠ n) : (L.preserve n R).origins.get o = R.origins.get o := by
  unfold preserve
  split
  · rfl
  · exact Dict.get_insert_of_ne _ _ h

theorem get_preserve_self (h : L.origins.get n = some c) :
    (L.preserve n R).origins.get n = some ((c.visible L.versions).retag R.versions) := by
  simp only [preserve, h]
  exact Dict.get_insert_self ..

variable {b : Bool}

@[simp] theorem received_epoch : (received n b L R).epoch = R.epoch := by
  unfold received
  split <;> simp

@[simp] theorem received_versions : (received n b L R).versions = R.versions := by
  unfold received
  split <;> simp

theorem get_received_of_ne (h : o ≠ n) : (received n b L R).origins.get o = R.origins.get o := by
  unfold received
  split
  · exact get_preserve_of_ne h
  · rfl

section

variable [DecidableEq M] [AddCommMonoid U] [Sample P] {m' : M} {u : U} {hour : ℕ} {sample : Option P}

@[simp] theorem record_epoch : (L.record n m' u hour sample cutoff).epoch = L.epoch := prune_epoch

@[simp] theorem record_versions : (L.record n m' u hour sample cutoff).versions = L.versions :=
  prune_versions

theorem keys_record :
    (L.record n m' u hour sample cutoff).origins.keys = insert n L.origins.keys := by
  rw [record, keys_prune, Dict.keys_insert]

theorem get_record_self (h : L.origins.get n = some c) :
    (L.record n m' u hour sample cutoff).origins.get n =
      some (L.pruner cutoff (c.record L.versions m' u hour sample)) := by
  simp only [record, get_prune, Dict.get_insert_self, h]
  rfl

theorem get_record_of_ne (h : o ≠ n) :
    (L.record n m' u hour sample cutoff).origins.get o = (L.prune cutoff).origins.get o := by
  simp only [record, get_prune, Dict.get_insert_of_ne _ _ h]
  rfl

end

theorem merge_higher (h : L.epoch < R.epoch) :
    L.merge n b cutoff R = ((received n b L R).prune cutoff).ensureOwn n :=
  if_pos (by simpa using h)

theorem merge_lower (h : R.epoch < L.epoch) : L.merge n b cutoff R = L.prune cutoff := by
  simp only [merge, prune_epoch, received_epoch]
  rw [if_neg (lt_asymm h), if_pos h]

theorem merge_equal (h : L.epoch = R.epoch) :
    L.merge n b cutoff R =
      ((L.prune cutoff).join ((received n b L R).prune cutoff)).ensureOwn n := by
  simp only [merge, prune_epoch, received_epoch]
  rw [if_neg (by rw [h]; exact lt_irrefl _), if_neg (by rw [h]; exact lt_irrefl _)]

theorem get_join_cases (h : (L.join R).origins.get o = some c) :
    (L.origins.get o = some c ∧ ∀ d, R.origins.get o = some d → d.revision ≤ c.revision) ∨
      (R.origins.get o = some c ∧ ∀ d, L.origins.get o = some d → d.revision ≤ c.revision) := by
  cases hL : L.origins.get o with
  | none =>
    rw [join, Dict.get_mergeWith_right hL] at h
    exact Or.inr ⟨h, fun d hd => absurd hd (by simp)⟩
  | some x =>
    cases hR : R.origins.get o with
    | none =>
      rw [join, Dict.get_mergeWith_left hR, hL] at h
      exact Or.inl ⟨h, fun d hd => absurd hd (by simp)⟩
    | some y =>
      rw [join, Dict.get_mergeWith_both hL hR] at h
      cases h
      rcases newer_cases x y with ⟨he, hlt⟩ | ⟨he, hle⟩
      · rw [he]
        refine Or.inr ⟨rfl, fun d hd => ?_⟩
        cases hd
        exact Nat.le_of_lt hlt
      · rw [he]
        refine Or.inl ⟨rfl, fun d hd => ?_⟩
        cases hd
        exact hle

/-- Whatever is in one of two ledgers is in their join, not older. -/
theorem get_join_of_some (h : L.origins.get o = some c ∨ R.origins.get o = some c) :
    ∃ d, (L.join R).origins.get o = some d ∧ c.revision ≤ d.revision := by
  have hk : o ∈ (L.join R).origins.keys := by
    refine Finset.mem_union.mpr ?_
    exact h.imp Dict.mem_keys_of_get Dict.mem_keys_of_get
  obtain ⟨d, hd⟩ := Dict.mem_keys_iff.mp hk
  refine ⟨d, hd, ?_⟩
  rcases get_join_cases hd with ⟨hd', hle⟩ | ⟨hd', hle⟩
  · rcases h with h | h
    · rw [hd'] at h
      exact Nat.le_of_eq (congrArg _ (Option.some.inj h).symm)
    · exact hle c h
  · rcases h with h | h
    · exact hle c h
    · rw [hd'] at h
      exact Nat.le_of_eq (congrArg _ (Option.some.inj h).symm)

theorem get_ensureOwn_of_some (h : L.origins.get o = some c) :
    (L.ensureOwn n).origins.get o = some c := by
  by_cases ho : o = n
  · subst ho
    rw [get_ensureOwn_self, h]
    rfl
  · rw [get_ensureOwn_of_ne ho, h]

theorem merge_epoch : (L.merge n b cutoff R).epoch = max L.epoch R.epoch := by
  rcases lt_trichotomy L.epoch R.epoch with h | h | h
  · rw [merge_higher h, max_eq_right (le_of_lt h)]
    simp
  · rw [merge_equal h, h, max_self]
    simp [join, h]
  · rw [merge_lower h, max_eq_left (le_of_lt h)]
    simp

/-- The node's own component is there after a merge. -/
theorem merge_own_isSome (hown : L.origins.get n = some c) :
    ∃ d, (L.merge n b cutoff R).origins.get n = some d := by
  rcases lt_trichotomy L.epoch R.epoch with h | h | h
  · rw [merge_higher h, get_ensureOwn_self]
    exact ⟨_, rfl⟩
  · rw [merge_equal h, get_ensureOwn_self]
    exact ⟨_, rfl⟩
  · rw [merge_lower h, get_prune, hown]
    exact ⟨_, rfl⟩

/-- What a merge read of its own epoch is there afterwards, not older. -/
theorem merge_covers {d : Component N M U P} (hd : (received n b L R).origins.get o = some d)
    (he : R.epoch = (L.merge n b cutoff R).epoch) :
    ∃ c, (L.merge n b cutoff R).origins.get o = some c ∧ d.revision ≤ c.revision := by
  have hp : ((received n b L R).prune cutoff).origins.get o =
      some ((received n b L R).pruner cutoff d) := by
    rw [get_prune, hd]
    rfl
  rw [merge_epoch] at he
  rcases lt_trichotomy L.epoch R.epoch with h | h | h
  · rw [merge_higher h]
    exact ⟨_, get_ensureOwn_of_some hp, by rw [pruner_revision]⟩
  · rw [merge_equal h]
    obtain ⟨c, hc, hle⟩ := get_join_of_some (L := L.prune cutoff) (Or.inr hp)
    exact ⟨c, get_ensureOwn_of_some hc, by simpa using hle⟩
  · rw [max_eq_left (le_of_lt h)] at he
    exact absurd he (ne_of_lt h)

/-- A component after a merge comes from one of the two ledgers, or is the empty one a node makes
for itself in an epoch that is not the first. -/
theorem merge_source (hown : ∃ d, L.origins.get n = some d)
    (hc : (L.merge n false cutoff R).origins.get o = some c) :
    (∃ K, (K = L ∨ K = R) ∧ K.epoch = (L.merge n false cutoff R).epoch ∧
      ∃ d, K.origins.get o = some d ∧ K.pruner cutoff d = c) ∨
    (L.merge n false cutoff R).epoch ≠ .zero ∧ c = .empty := by
  rcases lt_trichotomy L.epoch R.epoch with h | h | h
  · have he : R.epoch = (L.merge n false cutoff R).epoch := by
      rw [merge_epoch, max_eq_right (le_of_lt h)]
    have hcase : (R.prune cutoff).origins.get o = some c ∨ c = .empty := by
      rw [merge_higher h] at hc
      exact get_ensureOwn_cases hc
    rcases hcase with hc | rfl
    · obtain ⟨d, hd, hcd⟩ := get_prune_some hc
      exact Or.inl ⟨R, Or.inr rfl, he, d, hd, hcd⟩
    · exact Or.inr ⟨by rw [← he]; exact Version.ne_zero_of_lt h, rfl⟩
  · refine Or.inl ?_
    obtain ⟨x, hx⟩ := hown
    have hp : (L.prune cutoff).origins.get n = some (L.pruner cutoff x) := by
      rw [get_prune, hx]
      rfl
    obtain ⟨y, hy, -⟩ := get_join_of_some (R := (received n false L R).prune cutoff) (Or.inl hp)
    have hepoch : (L.merge n false cutoff R).epoch = L.epoch := by
      rw [merge_epoch, ← h, max_self]
    rw [hepoch]
    rw [merge_equal h, ensureOwn_of_some hy] at hc
    rcases get_join_cases hc with ⟨hc, -⟩ | ⟨hc, -⟩
    · obtain ⟨d, hd, hcd⟩ := get_prune_some hc
      exact ⟨L, Or.inl rfl, rfl, d, hd, hcd⟩
    · obtain ⟨d, hd, hcd⟩ := get_prune_some hc
      exact ⟨R, Or.inr rfl, h.symm, d, hd, hcd⟩
  · refine Or.inl ⟨L, Or.inl rfl, by rw [merge_epoch, max_eq_left (le_of_lt h)], ?_⟩
    rw [merge_lower h] at hc
    exact get_prune_some hc

/-- Nothing newer is read: the ledger stays. -/
theorem join_of_covered (hv : ∀ m, R.versions m ≤ L.versions m)
    (h : ∀ o d, R.origins.get o = some d →
      ∃ c, L.origins.get o = some c ∧ d.revision ≤ c.revision) : L.join R = L := by
  have hversions : (fun m => max (L.versions m) (R.versions m)) = L.versions :=
    funext fun m => max_eq_left (hv m)
  have horigins : L.origins.mergeWith newer R.origins = L.origins := by
    refine Dict.ext fun o => ?_
    cases hR : R.origins.get o with
    | none => exact Dict.get_mergeWith_left hR
    | some d =>
      obtain ⟨c, hc, hle⟩ := h o d hR
      rw [Dict.get_mergeWith_both hc hR, newer, if_neg (Nat.not_lt.mpr hle), hc]
  rw [join, hversions, horigins]

theorem merge_versions_le (he : R.epoch = (L.merge n b cutoff R).epoch) (m : M) :
    R.versions m ≤ (L.merge n b cutoff R).versions m := by
  rw [merge_epoch] at he
  rcases lt_trichotomy L.epoch R.epoch with h | h | h
  · rw [merge_higher h]
    simp
  · rw [merge_equal h]
    simp [join]
  · rw [max_eq_left (le_of_lt h)] at he
    exact absurd he (ne_of_lt h)

/-- **Merging the same ledger again** only prunes. -/
theorem merge_again {cutoff' : ℕ} (hown : L.origins.get n = some c) :
    (L.merge n b cutoff R).merge n b cutoff' R = (L.merge n b cutoff R).prune cutoff' := by
  obtain ⟨x, hx⟩ : ∃ x, (L.merge n b cutoff R).origins.get n = some x := merge_own_isSome hown
  have hle : R.epoch ≤ (L.merge n b cutoff R).epoch := by
    rw [merge_epoch]
    exact le_max_right _ _
  rcases lt_or_eq_of_le hle with hlt | he
  · exact merge_lower hlt
  · have hv := merge_versions_le he
    have hcov : ∀ o d, (received n b (L.merge n b cutoff R) R).origins.get o = some d →
        ∃ c, (L.merge n b cutoff R).origins.get o = some c ∧ d.revision ≤ c.revision := by
      intro o d hd
      by_cases ho : o = n
      · subst ho
        cases b with
        | false => exact merge_covers hd he
        | true =>
          -- the own component that is put back is the one that is there
          rw [received, if_pos rfl, get_preserve_self hx] at hd
          cases hd
          exact ⟨x, hx, Nat.le_refl _⟩
      · rw [get_received_of_ne ho] at hd
        exact merge_covers (by rw [get_received_of_ne ho]; exact hd) he
    have hpx : ((L.merge n b cutoff R).prune cutoff').origins.get n =
        some ((L.merge n b cutoff R).pruner cutoff' x) := by
      rw [get_prune, hx]
      rfl
    rw [merge_equal he.symm, join_of_covered (by simpa using hv), ensureOwn_of_some hpx]
    intro o d hd
    obtain ⟨y, hy, rfl⟩ := get_prune_some hd
    obtain ⟨z, hz, hyz⟩ := hcov o y hy
    exact ⟨_, by rw [get_prune, hz]; rfl, by simpa using hyz⟩

variable {origins : Dict N (Component N M U P)}

/-- The two outcomes: the peer's own component comes in, or the copy of it that is there is
newer. -/
theorem reconciled_cases {peer : N} (h : L.reconciled R peer = some origins) :
    ∃ d, R.origins.get peer = some d ∧
      (origins = (L.origins.map (·.visible L.versions)).insert peer (d.visible R.versions) ∧
          (∀ x, L.origins.get peer = some x → x.revision ≤ d.revision) ∨
        origins = L.origins.map (·.visible L.versions)) := by
  unfold reconciled at h
  cases hR : R.origins.get peer with
  | none => simp [hR] at h
  | some d =>
    refine ⟨d, rfl, ?_⟩
    cases hL : L.origins.get peer with
    | none =>
      simp only [hR, Dict.get_map, hL, Option.map_none] at h
      exact Or.inl ⟨(Option.some.inj h).symm, fun x hx => absurd hx (by simp)⟩
    | some x =>
      simp only [hR, Dict.get_map, hL, Option.map_some] at h
      split at h
      · next hle =>
        refine Or.inl ⟨(Option.some.inj h).symm, fun y hy => ?_⟩
        cases hy
        exact hle
      · exact Or.inr (Option.some.inj h).symm

theorem reconciled_keys {peer : N} (h : L.reconciled R peer = some origins) :
    origins.keys ⊆ L.origins.keys ∪ R.origins.keys := by
  obtain ⟨d, hd, ⟨rfl, -⟩ | rfl⟩ := reconciled_cases h
  · rw [Dict.keys_insert, Dict.keys_map, Finset.insert_subset_iff]
    exact ⟨Finset.mem_union_right _ (Dict.mem_keys_of_get hd), Finset.subset_union_left⟩
  · exact Finset.subset_union_left

end

end Ledger

end SparkDeck.Usage
