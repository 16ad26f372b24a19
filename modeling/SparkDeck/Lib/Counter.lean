import SparkDeck.Lib.Dict

/-!
# Counting dictionaries

A dictionary of positive counts: `up` adds one at a key, `down` takes one off and drops the key with
its last. `Counts d s` says that `d` counts the members of the multiset `s`; what a program holds at
each key is then one multiset, and `up` and `down` are `cons` and its inverse.

* `Counts.up`, `Counts.down`: the operations.
* `Counts.getD`, `Counts.isSome_iff`, `Counts.keys_eq_empty_iff`: what can be read off.
* `Counts.set_acquire`, `Counts.set_release`: the counted multiset is what the entries of a list
  hold, and one entry changes.
-/

namespace Dict

variable {κ : Type*} [DecidableEq κ]

def erase {α : Type*} (d : Dict κ α) (k : κ) : Dict κ α where
  keys := d.keys.erase k
  get j := if j = k then none else d.get j
  mem_keys j := by
    rw [Finset.mem_erase, d.mem_keys]
    by_cases hj : j = k <;> simp [hj]

theorem get_erase {α : Type*} (d : Dict κ α) (j k : κ) :
    (d.erase k).get j = if j = k then none else d.get j := rfl

/-- `d.setdefault(k, a)`. -/
def setdefault {α : Type*} (d : Dict κ α) (k : κ) (a : α) : Dict κ α :=
  if (d.get k).isSome then d else d.insert k a

theorem get_setdefault {α : Type*} (d : Dict κ α) (j k : κ) (a : α) :
    (d.setdefault k a).get j = if j = k then some ((d.get k).getD a) else d.get j := by
  unfold setdefault
  split
  case isTrue h =>
    obtain ⟨b, hb⟩ := Option.isSome_iff_exists.mp h
    split
    case isTrue hj => rw [hj, hb, Option.getD_some]
    case isFalse => rfl
  case isFalse h =>
    rw [get_insert, Option.not_isSome_iff_eq_none.mp h, Option.getD_none]

/-- `d[k] = d.get(k, 0) + 1`. -/
def up (d : Dict κ ℕ) (k : κ) : Dict κ ℕ := d.insert k ((d.get k).getD 0 + 1)

/-- One less at `k`; nothing is kept for a count of zero. -/
def down (d : Dict κ ℕ) (k : κ) : Dict κ ℕ :=
  if 1 < (d.get k).getD 0 then d.insert k ((d.get k).getD 0 - 1) else d.erase k

/-- `d` counts the members of `s`. -/
def Counts (d : Dict κ ℕ) (s : Multiset κ) : Prop :=
  ∀ k, d.get k = if s.count k = 0 then none else some (s.count k)

theorem counts_empty : Counts (empty : Dict κ ℕ) 0 := fun _ => by simp

variable {d : Dict κ ℕ} {s : Multiset κ} {k : κ}

theorem Counts.getD (h : Counts d s) (k : κ) : (d.get k).getD 0 = s.count k := by
  rw [h k]
  split
  case isTrue h0 => exact h0.symm
  case isFalse => rfl

theorem Counts.isSome_iff (h : Counts d s) : (d.get k).isSome ↔ k ∈ s := by
  rw [h k, ← Multiset.one_le_count_iff_mem]
  split
  case isTrue h0 => simp [h0]
  case isFalse h0 => simp only [Option.isSome_some, true_iff]; omega

theorem Counts.keys_eq_empty_iff (h : Counts d s) : d.keys = ∅ ↔ s = 0 := by
  constructor
  · intro hk
    refine Multiset.eq_zero_of_forall_notMem fun k hmem => ?_
    have hkey : k ∈ d.keys := (d.mem_keys k).mpr (h.isSome_iff.mpr hmem)
    simp [hk] at hkey
  · rintro rfl
    refine Finset.eq_empty_of_forall_notMem fun k hk => ?_
    exact absurd (h.isSome_iff.mp ((d.mem_keys k).mp hk)) (Multiset.notMem_zero k)

theorem Counts.up (h : Counts d s) (k : κ) : Counts (d.up k) (k ::ₘ s) := by
  intro j
  rw [Dict.up, get_insert, h.getD]
  by_cases hj : j = k
  · subst hj
    simp
  · rw [if_neg hj, Multiset.count_cons_of_ne hj, h j]

theorem Counts.down (h : Counts d (k ::ₘ s)) : Counts (d.down k) s := by
  intro j
  have hk : (d.get k).getD 0 = s.count k + 1 := by rw [h.getD, Multiset.count_cons_self]
  unfold Dict.down
  by_cases hj : j = k
  · subst hj
    by_cases h0 : s.count j = 0
    · rw [if_neg (by omega), get_erase, if_pos rfl, if_pos h0]
    · rw [if_pos (by omega), get_insert, if_pos rfl, if_neg h0, hk, Nat.add_sub_cancel]
  · have hget : d.get j = if s.count j = 0 then none else some (s.count j) := by
      rw [h j, Multiset.count_cons_of_ne hj]
    split
    · rw [get_insert, if_neg hj, hget]
    · rw [get_erase, if_neg hj, hget]

/-! ## What the entries of a list hold -/

section Holders

variable {β : Type*} {l : List β} {r : ℕ} {q q' : β} {hold : β → Option κ}

/-- An entry that comes to hold `k`. -/
theorem Counts.set_acquire (h : Counts d ↑(l.filterMap hold)) (hr : l[r]? = some q)
    (hq : hold q = none) (hq' : hold q' = some k) :
    Counts (d.up k) ↑((l.set r q').filterMap hold) := by
  obtain ⟨hlt, hget⟩ := List.getElem?_eq_some_iff.mp hr
  have hold_eq : l.filterMap hold = (l.take r ++ l.drop (r + 1)).filterMap hold := by
    conv_lhs => rw [← List.take_append_drop r l, List.drop_eq_getElem_cons hlt, hget]
    simp [hq]
  have hset : (↑((l.set r q').filterMap hold) : Multiset κ) = k ::ₘ ↑(l.filterMap hold) := by
    rw [List.set_eq_take_append_cons_drop, if_pos hlt, hold_eq, Multiset.cons_coe,
      Multiset.coe_eq_coe]
    simp [List.filterMap_append, hq']
  rw [hset]
  exact h.up k

/-- An entry that gives up `k`. -/
theorem Counts.set_release (h : Counts d ↑(l.filterMap hold)) (hr : l[r]? = some q)
    (hq : hold q = some k) (hq' : hold q' = none) :
    Counts (d.down k) ↑((l.set r q').filterMap hold) := by
  obtain ⟨hlt, hget⟩ := List.getElem?_eq_some_iff.mp hr
  have hset : (l.set r q').filterMap hold = (l.take r ++ l.drop (r + 1)).filterMap hold := by
    rw [List.set_eq_take_append_cons_drop, if_pos hlt]
    simp [hq']
  have hold_eq : (↑(l.filterMap hold) : Multiset κ) = k ::ₘ ↑((l.set r q').filterMap hold) := by
    rw [hset, Multiset.cons_coe, Multiset.coe_eq_coe]
    conv_lhs => rw [← List.take_append_drop r l, List.drop_eq_getElem_cons hlt, hget]
    simp [List.filterMap_append, hq]
  rw [hold_eq] at h
  exact h.down

omit [DecidableEq κ] in
/-- An entry that holds what it held. -/
theorem filterMap_set_of_eq (hr : l[r]? = some q) (hq : hold q' = hold q) :
    (l.set r q').filterMap hold = l.filterMap hold := by
  obtain ⟨hlt, hget⟩ := List.getElem?_eq_some_iff.mp hr
  conv_rhs => rw [← List.take_append_drop r l, List.drop_eq_getElem_cons hlt, hget]
  rw [List.set_eq_take_append_cons_drop, if_pos hlt]
  simp [List.filterMap_append, List.filterMap_cons, hq]

end Holders

end Dict
