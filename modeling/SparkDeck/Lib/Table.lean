import Mathlib.Algebra.GroupWithZero.Nat
import Mathlib.Data.List.Basic

/-!
# Lists as tables

A list whose entries keep their positions: one entry is changed (`List.set`), or one is added at the
end. What is found in the new table is the new entry, or it was there before.
-/

namespace Table

variable {α : Type*} {l : List α} {k i : ℕ} {x y : α}

theorem set_cases (h : (l.set k x)[i]? = some y) : i = k ∧ y = x ∨ i ≠ k ∧ l[i]? = some y := by
  rw [List.getElem?_set] at h
  split at h
  case isTrue hk =>
    split at h
    case isTrue => exact Or.inl ⟨hk.symm, (Option.some.inj h).symm⟩
    case isFalse => cases h
  case isFalse hk => exact Or.inr ⟨fun he => hk he.symm, h⟩

theorem get_set_self (h : l[k]? = some y) : (l.set k x)[k]? = some x :=
  List.getElem?_set_self (List.getElem?_eq_some_iff.mp h).1

theorem get_set_ne (h : l[i]? = some y) (hi : i ≠ k) : (l.set k x)[i]? = some y := by
  rw [List.getElem?_set_ne (Ne.symm hi), h]

/-- An entry is set to what it is. -/
theorem set_self (h : l[k]? = some x) : l.set k x = l := by
  obtain ⟨hk, rfl⟩ := List.getElem?_eq_some_iff.mp h
  exact List.set_getElem_self hk

theorem append_cases (h : (l ++ [x])[i]? = some y) :
    l[i]? = some y ∨ i = l.length ∧ y = x := by
  rw [List.getElem?_append] at h
  split at h
  case isTrue => exact Or.inl h
  case isFalse hi =>
    rw [List.getElem?_singleton] at h
    split at h
    case isTrue h0 => exact Or.inr ⟨by omega, (Option.some.inj h).symm⟩
    case isFalse => cases h

theorem mem_snoc (h : y ∈ l ++ [x]) : y ∈ l ∨ y = x :=
  (List.mem_append.mp h).imp_right List.mem_singleton.mp

theorem get_append (h : l[i]? = some y) : (l ++ [x])[i]? = some y := by
  rw [List.getElem?_append_left (List.getElem?_eq_some_iff.mp h).1, h]

theorem get_append_length : (l ++ [x])[l.length]? = some x := by simp

/-- One entry of a sum is replaced. -/
theorem sum_set {l : List ℕ} {a b : ℕ} (h : l[k]? = some a) :
    (l.set k b).sum + a = l.sum + b := by
  induction l generalizing k with
  | nil => cases h
  | cons x l ih =>
    cases k with
    | zero =>
      cases h
      simp only [List.set_cons_zero, List.sum_cons]
      omega
    | succ k =>
      have hrest := ih h
      simp only [List.set_cons_succ, List.sum_cons]
      omega

/-- What holds of an entry, if there is one, is tested on it. -/
scoped instance decidableEntry {p : α → Prop} [DecidablePred p] (o : Option α) :
    Decidable (∀ x, o = some x → p x) :=
  match o with
  | none => isTrue fun _ h => by cases h
  | some x => decidable_of_iff (p x) ⟨fun hp _ h => Option.some.inj h ▸ hp, fun h => h x rfl⟩

scoped instance decidableEntries {p : ℕ → α → Prop} [∀ i x, Decidable (p i x)] (l : List α) :
    Decidable (∀ i x, l[i]? = some x → p i x) :=
  decidable_of_iff (∀ i < l.length, ∀ x, l[i]? = some x → p i x)
    ⟨fun h i x hi => h i (List.getElem?_eq_some_iff.mp hi).1 x hi, fun h i _ x hi => h i x hi⟩

end Table
