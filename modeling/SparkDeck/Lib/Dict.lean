import Mathlib.Algebra.BigOperators.Group.Finset.Basic
import Mathlib.Order.Lattice.Nat

/-!
# Finite dictionaries

`Dict κ α` is a lookup function with the finite set of its keys. Two dictionaries are equal when
their lookups are (`Dict.ext`), so every operation is described by one lemma about `get`; the key set
is there to iterate: `sum` and `sup` range over it.

* `get_insert`, `get_map`, `get_filter`, `get_mergeWith`: what the operations look up.
* `sum_eq_of_subset`: a sum over the dictionary is a sum over any larger set of keys.
-/

/-- A finite partial map. -/
structure Dict (κ α : Type*) where
  keys : Finset κ
  get : κ → Option α
  mem_keys : ∀ k, k ∈ keys ↔ (get k).isSome

namespace Dict

open Function

variable {κ α β M : Type*}

theorem ext {d e : Dict κ α} (h : ∀ k, d.get k = e.get k) : d = e := by
  obtain ⟨dk, dg, hd⟩ := d
  obtain ⟨ek, eg, he⟩ := e
  have hg : dg = eg := funext h
  subst hg
  have hk : dk = ek := by
    refine Finset.ext fun k => ?_
    rw [hd, he]
  subst hk
  rfl

variable {d : Dict κ α} {k : κ}

theorem mem_keys_iff : k ∈ d.keys ↔ ∃ a, d.get k = some a := by
  rw [d.mem_keys, Option.isSome_iff_exists]

theorem mem_keys_of_get {a : α} (h : d.get k = some a) : k ∈ d.keys :=
  mem_keys_iff.mpr ⟨a, h⟩

theorem get_eq_none_of_not_mem (h : k ∉ d.keys) : d.get k = none := by
  cases hg : d.get k with
  | none => rfl
  | some a => exact absurd (mem_keys_of_get hg) h

/-! ## Operations -/

def empty : Dict κ α := ⟨∅, fun _ => none, fun k => by simp⟩

@[simp] theorem get_empty (k : κ) : (empty : Dict κ α).get k = none := rfl
@[simp] theorem keys_empty : (empty : Dict κ α).keys = ∅ := rfl

def map (f : α → β) (d : Dict κ α) : Dict κ β :=
  ⟨d.keys, fun k => (d.get k).map f, fun k => by rw [Option.isSome_map, d.mem_keys]⟩

@[simp] theorem get_map (f : α → β) (d : Dict κ α) (k : κ) :
    (d.map f).get k = (d.get k).map f := rfl

@[simp] theorem keys_map (f : α → β) (d : Dict κ α) : (d.map f).keys = d.keys := rfl

theorem get_map_eq_some {f : α → β} {b : β} :
    (d.map f).get k = some b ↔ ∃ a, d.get k = some a ∧ f a = b := by
  rw [get_map, Option.map_eq_some_iff]

def filter (p : κ → Prop) [DecidablePred p] (d : Dict κ α) : Dict κ α where
  keys := d.keys.filter p
  get k := if p k then d.get k else none
  mem_keys k := by
    rw [Finset.mem_filter, d.mem_keys]
    by_cases hp : p k <;> simp [hp]

theorem get_filter (p : κ → Prop) [DecidablePred p] (d : Dict κ α) (k : κ) :
    (d.filter p).get k = if p k then d.get k else none := rfl

/-! ## Iteration -/

/-- The sum of `f` over the values. -/
def sum [AddCommMonoid M] (d : Dict κ α) (f : α → M) : M :=
  ∑ k ∈ d.keys, ((d.get k).map f).getD 0

theorem sum_eq_of_subset [AddCommMonoid M] {f : α → M} {s : Finset κ} (h : d.keys ⊆ s) :
    d.sum f = ∑ k ∈ s, ((d.get k).map f).getD 0 := by
  refine Finset.sum_subset h fun k _ hk => ?_
  rw [get_eq_none_of_not_mem hk]
  rfl

/-- The largest `f` of a value. -/
def sup (d : Dict κ α) (f : α → ℕ) : ℕ := d.keys.sup fun k => ((d.get k).map f).getD 0

/-- Some value passes `p`. -/
def any (d : Dict κ α) (p : α → Bool) : Bool :=
  decide (∃ k ∈ d.keys, ((d.get k).map p).getD false)

/-! ## Inserting and merging -/

variable [DecidableEq κ]

def insert (d : Dict κ α) (k : κ) (a : α) : Dict κ α where
  keys := Insert.insert k d.keys
  get := update d.get k (some a)
  mem_keys j := by
    rw [Finset.mem_insert, d.mem_keys]
    by_cases hj : j = k
    · simp [hj]
    · simp [hj, update_of_ne]

@[simp] theorem get_insert_self (d : Dict κ α) (k : κ) (a : α) : (d.insert k a).get k = some a :=
  update_self ..

theorem get_insert_of_ne (d : Dict κ α) {j k : κ} (a : α) (h : j ≠ k) :
    (d.insert k a).get j = d.get j :=
  update_of_ne h ..

theorem get_insert (d : Dict κ α) (j k : κ) (a : α) :
    (d.insert k a).get j = if j = k then some a else d.get j :=
  update_apply ..

@[simp] theorem keys_insert (d : Dict κ α) (k : κ) (a : α) :
    (d.insert k a).keys = Insert.insert k d.keys := rfl

/-- All keys of both; `f` decides where both have one. -/
def mergeWith (f : α → α → α) (d e : Dict κ α) : Dict κ α where
  keys := d.keys ∪ e.keys
  get k :=
    match d.get k, e.get k with
    | some a, some b => some (f a b)
    | some a, none => some a
    | none, y => y
  mem_keys k := by
    rw [Finset.mem_union, d.mem_keys, e.mem_keys]
    cases d.get k <;> cases e.get k <;> simp

theorem get_mergeWith_left {f : α → α → α} {d e : Dict κ α} (h : e.get k = none) :
    (d.mergeWith f e).get k = d.get k := by
  simp only [mergeWith, h]
  cases d.get k <;> rfl

theorem get_mergeWith_right {f : α → α → α} {d e : Dict κ α} (h : d.get k = none) :
    (d.mergeWith f e).get k = e.get k := by
  simp only [mergeWith, h]

theorem get_mergeWith_both {f : α → α → α} {d e : Dict κ α} {a b : α} (hd : d.get k = some a)
    (he : e.get k = some b) : (d.mergeWith f e).get k = some (f a b) := by
  simp only [mergeWith, hd, he]

end Dict
