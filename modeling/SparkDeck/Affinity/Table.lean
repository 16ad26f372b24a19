import SparkDeck.Affinity.Keys
import SparkDeck.Lib.Assoc

/-!
# The table of served conversations

Model of `PrefixAffinity._expire`, `lookup` and `remember` (`sparkdeck/prefix_affinity.py`): a map
from a scope and a digest to the target that served the prompt and the time it was last used, the
least recently used first.

* A call carries the readings of the clock it makes: `now` in `_expire`, `touched` where an entry is
  written.
* `remembered` and `lastTouch` look at the calls only: the target of the last `remember` of a key,
  and when an entry of it was last written.

Results:
* `find_eq_some`: the loop of `lookup` stops at a usable key of the greatest strength.
* `Held`, kept by every call: the table is no larger than its capacity, and holds of every key what
  the calls last said about it.
* `lookup_fresh`: an answer is a candidate, and its entry was written less than `ttl` ago.
-/

namespace SparkDeck.Affinity

open JsonText

structure Settings where
  ttl : ℚ
  capacity : ℕ

variable {σ δ τ : Type}

/-- `PrefixAffinity.entries`. -/
structure Table (σ δ τ : Type) where
  entries : List ((σ × δ) × (τ × ℚ))
  nodup : (entries.map Prod.fst).Nodup

def Table.empty : Table σ δ τ := ⟨[], List.nodup_nil⟩

/-- `_expire`. -/
def Table.expire (s : Settings) (now : ℚ) (t : Table σ δ τ) : Table σ δ τ where
  entries := t.entries.filter fun x => ¬ s.ttl ≤ now - x.2.2
  nodup := t.nodup.sublist (List.filter_sublist.map _)

theorem length_expire {s : Settings} {now : ℚ} {t : Table σ δ τ} :
    (t.expire s now).entries.length ≤ t.entries.length :=
  List.length_filter_le _ _

variable [DecidableEq σ] [DecidableEq δ]

def Table.get (t : Table σ δ τ) (key : σ × δ) : Option (τ × ℚ) := Assoc.get t.entries key

theorem nodup_write {l : List ((σ × δ) × (τ × ℚ))} (h : (l.map Prod.fst).Nodup) (key : σ × δ)
    (value : τ × ℚ) : ((Assoc.erase l key ++ [(key, value)]).map Prod.fst).Nodup := by
  rw [List.map_append, List.nodup_append]
  refine ⟨h.sublist (List.filter_sublist.map _), List.nodup_singleton _, ?_⟩
  intro a ha b hb hab
  obtain ⟨x, hx, rfl⟩ := List.mem_map.mp ha
  obtain rfl := List.mem_singleton.mp hb
  exact (Assoc.mem_erase.mp hx).2 hab

/-- `entries[key] = value` and `move_to_end(key)`. -/
def Table.write (t : Table σ δ τ) (key : σ × δ) (value : τ × ℚ) : Table σ δ τ where
  entries := Assoc.erase t.entries key ++ [(key, value)]
  nodup := nodup_write t.nodup key value

/-- `while len(entries) > capacity: popitem(last=False)`. -/
def popWhile {α : Type} (capacity : ℕ) : List α → List α
  | [] => []
  | x :: rest => if capacity < (x :: rest).length then popWhile capacity rest else x :: rest

theorem popWhile_suffix {α : Type} (capacity : ℕ) (l : List α) : popWhile capacity l <:+ l := by
  induction l with
  | nil => exact List.suffix_rfl
  | cons x rest ih =>
    unfold popWhile
    split
    · exact ih.trans (List.suffix_cons x rest)
    · exact List.suffix_rfl

theorem popWhile_length {α : Type} (capacity : ℕ) (l : List α) :
    (popWhile capacity l).length ≤ capacity := by
  induction l with
  | nil => exact Nat.zero_le _
  | cons x rest ih =>
    unfold popWhile
    split
    · exact ih
    · omega

def Table.evict (s : Settings) (t : Table σ δ τ) : Table σ δ τ where
  entries := popWhile s.capacity t.entries
  nodup := t.nodup.sublist ((popWhile_suffix _ _).sublist.map _)

variable {s : Settings} {t : Table σ δ τ} {key k : σ × δ} {entry value : τ × ℚ} {now : ℚ}

theorem get_eq_some : t.get key = some entry ↔ (key, entry) ∈ t.entries :=
  Assoc.get_eq_some_iff t.nodup

theorem get_expire :
    (t.expire s now).get key = some entry ↔ t.get key = some entry ∧ now - entry.2 < s.ttl := by
  rw [get_eq_some, get_eq_some]
  unfold Table.expire
  rw [List.mem_filter, decide_eq_true_iff, not_le]

theorem get_write :
    (t.write k value).get key = some entry ↔
      (key = k ∧ entry = value) ∨ (key ≠ k ∧ t.get key = some entry) := by
  rw [get_eq_some, get_eq_some]
  unfold Table.write
  rw [List.mem_append, List.mem_singleton, Prod.mk.injEq, Assoc.mem_erase]
  constructor
  · rintro (⟨hmem, hne⟩ | heq)
    · exact Or.inr ⟨hne, hmem⟩
    · exact Or.inl heq
  · rintro (heq | ⟨hne, hmem⟩)
    · exact Or.inr heq
    · exact Or.inl ⟨hmem, hne⟩

theorem length_write (h : t.get key = some entry) :
    (t.write key value).entries.length ≤ t.entries.length := by
  have hlt := Assoc.length_erase_lt (get_eq_some.mp h)
  unfold Table.write
  rw [List.length_append, List.length_singleton]
  exact hlt

theorem get_of_evict (h : (t.evict s).get key = some entry) : t.get key = some entry := by
  rw [get_eq_some] at h ⊢
  exact (popWhile_suffix _ _).subset h

variable [DecidableEq τ]

/-- What the loop of `lookup` finds at one key. -/
def Table.usable (t : Table σ δ τ) (scope : σ) (candidates : List τ) (key : δ × ℕ) :
    Option ((σ × δ) × τ) :=
  if key.2 = 0 then none
  else
    match t.get (scope, key.1) with
    | some entry => if entry.1 ∈ candidates then some ((scope, key.1), entry.1) else none
    | none => none

/-- `sorted(keys, key=strength, reverse=True)`. -/
def byStrength (keys : List (δ × ℕ)) : List (δ × ℕ) := keys.insertionSort fun a b => b.2 ≤ a.2

def Table.find (t : Table σ δ τ) (scope : σ) (keys : List (δ × ℕ)) (candidates : List τ) :
    Option ((σ × δ) × τ) :=
  (byStrength keys).findSome? (t.usable scope candidates)

/-- A call, with its readings of the clock. -/
inductive Call (σ δ τ : Type) where
  | lookup (scope : σ) (keys : List (δ × ℕ)) (candidates : List τ) (now touched : ℚ)
  | remember (scope : σ) (keys : List (δ × ℕ)) (target : τ) (now touched : ℚ)

/-- The answer of a call, the key it writes with the time, and the table after it. -/
structure Outcome (σ δ τ : Type) where
  answer : Option τ
  written : Option ((σ × δ) × ℚ)
  table : Table σ δ τ

def Table.lookup (s : Settings) (t : Table σ δ τ) (scope : σ) (keys : List (δ × ℕ))
    (candidates : List τ) (now touched : ℚ) : Outcome σ δ τ :=
  let t := t.expire s now
  match t.find scope keys candidates with
  | some (key, target) => ⟨some target, some (key, touched), t.write key (target, touched)⟩
  | none => ⟨none, none, t⟩

def Table.remember (s : Settings) (t : Table σ δ τ) (scope : σ) (keys : List (δ × ℕ)) (target : τ)
    (now touched : ℚ) : Outcome σ δ τ :=
  match keys.getLast? with
  | none => ⟨none, none, t⟩
  | some (digest, _) =>
    ⟨none, some ((scope, digest), touched),
      (((t.expire s now).write (scope, digest) (target, touched)).evict s)⟩

def Call.run (s : Settings) (t : Table σ δ τ) : Call σ δ τ → Outcome σ δ τ
  | .lookup scope keys candidates now touched => t.lookup s scope keys candidates now touched
  | .remember scope keys target now touched => t.remember s scope keys target now touched

/-- The table after a run of calls. -/
def after (s : Settings) (t : Table σ δ τ) : List (Call σ δ τ) → Table σ δ τ
  | [] => t
  | c :: rest => after s (c.run s t).table rest

/-! ## What the calls say -/

/-- The key and the target of a `remember`. -/
def Call.remembers : Call σ δ τ → Option ((σ × δ) × τ)
  | .lookup .. => none
  | .remember scope keys target _ _ => keys.getLast?.map fun k => ((scope, k.1), target)

/-- A value written for `key` replaces what was found. -/
def newest {α : Type} (key : σ × δ) (found : Option α) : Option ((σ × δ) × α) → Option α
  | some (k, value) => if k = key then some value else found
  | none => found

/-- The target of the last `remember` of a key. -/
def remembered (key : σ × δ) (calls : List (Call σ δ τ)) : Option τ :=
  calls.foldl (fun found c => newest key found c.remembers) none

/-- When an entry of `key` was last written. -/
def lastTouch (s : Settings) (key : σ × δ) (found : Option ℚ) (t : Table σ δ τ) :
    List (Call σ δ τ) → Option ℚ
  | [] => found
  | c :: rest => lastTouch s key (newest key found (c.run s t).written) (c.run s t).table rest

/-! ## What `lookup` finds -/

variable {candidates : List τ} {scope : σ} {target : τ}

theorem usable_eq_some {x : δ × ℕ} :
    t.usable scope candidates x = some (k, target) ↔
      0 < x.2 ∧ k = (scope, x.1) ∧ target ∈ candidates ∧
        ∃ touched, t.get (scope, x.1) = some (target, touched) := by
  unfold Table.usable
  split
  case isTrue h0 =>
    constructor
    · intro h
      cases h
    · rintro ⟨hpos, -⟩
      omega
  case isFalse h0 =>
    cases hg : t.get (scope, x.1) with
    | none =>
      constructor
      · intro h
        cases h
      · rintro ⟨-, -, -, touched, h⟩
        cases h
    | some found =>
      obtain ⟨served, at'⟩ := found
      dsimp only
      split
      case isTrue hmem =>
        constructor
        · intro h
          cases h
          exact ⟨by omega, rfl, hmem, at', rfl⟩
        · rintro ⟨-, rfl, -, touched, h⟩
          rw [(Prod.mk.inj (Option.some.inj h)).1]
      case isFalse hmem =>
        constructor
        · intro h
          cases h
        · rintro ⟨-, -, hin, touched, h⟩
          rw [← (Prod.mk.inj (Option.some.inj h)).1] at hin
          exact absurd hin hmem

variable {keys : List (δ × ℕ)}

/-- The loop over the keys stops at a usable one of the greatest strength. -/
theorem find_eq_some (h : t.find scope keys candidates = some (k, target)) :
    ∃ x ∈ keys, t.usable scope candidates x = some (k, target) ∧
      ∀ y ∈ keys, t.usable scope candidates y ≠ none → y.2 ≤ x.2 := by
  obtain ⟨l₁, x, l₂, hl, hx, hbefore⟩ := List.findSome?_eq_some_iff.mp h
  have hperm : (byStrength keys).Perm keys := List.perm_insertionSort _ keys
  have hsorted : (byStrength keys).Pairwise fun a b => b.2 ≤ a.2 := by
    have htotal : Std.Total fun a b : δ × ℕ => b.2 ≤ a.2 := ⟨fun a b => Nat.le_total b.2 a.2⟩
    have htrans : IsTrans (δ × ℕ) fun a b => b.2 ≤ a.2 := ⟨fun _ _ _ hab hbc => hbc.trans hab⟩
    exact List.pairwise_insertionSort _ keys
  rw [hl] at hperm hsorted
  refine ⟨x, hperm.mem_iff.mp (by simp), hx, fun y hy hne => ?_⟩
  have hmem : y ∈ l₁ ++ x :: l₂ := hperm.mem_iff.mpr hy
  rcases List.mem_append.mp hmem with hl₁ | hl₂
  · exact absurd (hbefore y hl₁) hne
  · rcases List.mem_cons.mp hl₂ with rfl | hl₂
    · exact Nat.le_refl _
    · exact (List.pairwise_cons.mp (List.pairwise_append.mp hsorted).2.1).1 y hl₂

theorem find_eq_none (h : t.find scope keys candidates = none) :
    ∀ x ∈ keys, t.usable scope candidates x = none := by
  intro x hx
  exact List.findSome?_eq_none_iff.mp h x ((List.mem_insertionSort _).mpr hx)

theorem lookup_of_none {at' : ℚ} (hf : (t.expire s now).find scope keys candidates = none) :
    t.lookup s scope keys candidates now at' = ⟨none, none, t.expire s now⟩ := by
  unfold Table.lookup
  dsimp only
  rw [hf]

theorem lookup_of_some {at' : ℚ}
    (hf : (t.expire s now).find scope keys candidates = some (k, target)) :
    t.lookup s scope keys candidates now at' =
      ⟨some target, some (k, at'), (t.expire s now).write k (target, at')⟩ := by
  unfold Table.lookup
  dsimp only
  rw [hf]

/-- The answer depends on which candidates there are only. -/
theorem lookup_congr {candidates others : List τ} {at' : ℚ} (h : ∀ x, x ∈ candidates ↔ x ∈ others) :
    t.lookup s scope keys candidates now at' = t.lookup s scope keys others now at' := by
  have husable : ∀ u : Table σ δ τ, u.usable scope candidates = u.usable scope others := by
    intro u
    funext x
    unfold Table.usable
    simp only [h]
  unfold Table.lookup Table.find
  simp only [husable]

/-! ## What every call keeps -/

omit [DecidableEq τ] in
theorem remembered_concat (calls : List (Call σ δ τ)) (c : Call σ δ τ) :
    remembered key (calls ++ [c]) = newest key (remembered key calls) c.remembers := by
  unfold remembered
  rw [List.foldl_append]
  rfl

/-- The table has no more entries than it may have, and no entry that the calls did not make. -/
structure Held (s : Settings) (calls : List (Call σ δ τ)) (touched : σ × δ → Option ℚ)
    (t : Table σ δ τ) : Prop where
  bounded : t.entries.length ≤ s.capacity
  said : ∀ key entry, t.get key = some entry →
    remembered key calls = some entry.1 ∧ touched key = some entry.2

variable {calls : List (Call σ δ τ)} {touched : σ × δ → Option ℚ}

theorem held_lookup (h : Held s calls touched t) (scope : σ) (keys : List (δ × ℕ))
    (candidates : List τ) (now at' : ℚ) :
    Held s (calls ++ [.lookup scope keys candidates now at'])
      (fun key => newest key (touched key) (t.lookup s scope keys candidates now at').written)
      (t.lookup s scope keys candidates now at').table := by
  have hrem : ∀ key, remembered key (calls ++ [.lookup scope keys candidates now at']) =
      remembered key calls := fun key => remembered_concat calls _
  cases hf : (t.expire s now).find scope keys candidates with
  | none =>
    rw [lookup_of_none hf]
    refine ⟨length_expire.trans h.bounded, fun key entry hg => ?_⟩
    rw [hrem]
    exact h.said key entry (get_expire.mp hg).1
  | some found =>
    obtain ⟨k, target⟩ := found
    obtain ⟨x, -, hx, -⟩ := find_eq_some hf
    obtain ⟨-, hk, -, before, hget⟩ := usable_eq_some.mp hx
    rw [← hk] at hget
    rw [lookup_of_some hf]
    refine ⟨(length_write hget).trans (length_expire.trans h.bounded), fun key entry hg => ?_⟩
    rw [hrem]
    dsimp only [newest]
    obtain ⟨rfl, rfl⟩ | ⟨hne, hold⟩ := get_write.mp hg
    · rw [if_pos rfl]
      exact ⟨(h.said _ _ (get_expire.mp hget).1).1, rfl⟩
    · rw [if_neg (Ne.symm hne)]
      exact h.said key entry (get_expire.mp hold).1

omit [DecidableEq τ] in
theorem held_remember (h : Held s calls touched t) (scope : σ) (keys : List (δ × ℕ)) (target : τ)
    (now at' : ℚ) :
    Held s (calls ++ [.remember scope keys target now at'])
      (fun key => newest key (touched key) (t.remember s scope keys target now at').written)
      (t.remember s scope keys target now at').table := by
  have hrem : ∀ key, remembered key (calls ++ [.remember scope keys target now at']) =
      newest key (remembered key calls) (keys.getLast?.map fun k => ((scope, k.1), target)) :=
    fun key => remembered_concat calls _
  unfold Table.remember
  cases hl : keys.getLast? with
  | none =>
    refine ⟨h.bounded, fun key entry hg => ?_⟩
    rw [hrem, hl]
    exact h.said key entry hg
  | some last =>
    obtain ⟨digest, strength⟩ := last
    refine ⟨popWhile_length _ _, fun key entry hg => ?_⟩
    rw [hrem, hl]
    dsimp only [newest, Option.map_some]
    obtain ⟨rfl, rfl⟩ | ⟨hne, hold⟩ := get_write.mp (get_of_evict hg)
    · rw [if_pos rfl, if_pos rfl]
      exact ⟨rfl, rfl⟩
    · rw [if_neg (Ne.symm hne), if_neg (Ne.symm hne)]
      exact h.said key entry (get_expire.mp hold).1

theorem held_run (h : Held s calls touched t) (c : Call σ δ τ) :
    Held s (calls ++ [c]) (fun key => newest key (touched key) (c.run s t).written)
      (c.run s t).table := by
  cases c with
  | lookup scope keys candidates now at' => exact held_lookup h scope keys candidates now at'
  | remember scope keys target now at' => exact held_remember h scope keys target now at'

theorem held_after (h : Held s calls touched t) (rest : List (Call σ δ τ)) :
    Held s (calls ++ rest) (fun key => lastTouch s key (touched key) t rest)
      (after s t rest) := by
  induction rest generalizing calls touched t with
  | nil => rwa [List.append_nil]
  | cons c rest ih =>
    have hc := ih (held_run h c)
    rwa [List.append_assoc] at hc

omit [DecidableEq τ] in
theorem held_empty (s : Settings) :
    Held (σ := σ) (δ := δ) (τ := τ) s [] (fun _ => none) .empty :=
  ⟨Nat.zero_le _, nofun⟩

theorem held_reachable (s : Settings) (calls : List (Call σ δ τ)) :
    Held s calls (fun key => lastTouch s key none .empty calls) (after s .empty calls) :=
  held_after (held_empty s) calls

/-- An answer of `lookup` is a candidate whose entry was written less than `ttl` ago. -/
theorem lookup_fresh {now at' : ℚ}
    (h : ((after s .empty calls).lookup s scope keys candidates now at').answer = some target) :
    target ∈ candidates ∧ ∃ x ∈ keys, ∃ touch, remembered (scope, x.1) calls = some target ∧
      lastTouch s (scope, x.1) none .empty calls = some touch ∧ now - touch < s.ttl := by
  cases hf : ((after s .empty calls).expire s now).find scope keys candidates with
  | none =>
    rw [lookup_of_none hf] at h
    cases h
  | some found =>
    obtain ⟨k, served⟩ := found
    rw [lookup_of_some hf] at h
    obtain rfl : served = target := Option.some.inj h
    obtain ⟨x, hx, hu, -⟩ := find_eq_some hf
    obtain ⟨-, -, hmem, touch, hget⟩ := usable_eq_some.mp hu
    obtain ⟨hold, hfresh⟩ := get_expire.mp hget
    obtain ⟨hrem, htouch⟩ := (held_reachable s calls).said _ _ hold
    exact ⟨hmem, x, hx, touch, hrem, htouch, hfresh⟩

end SparkDeck.Affinity
