import Mathlib.Data.List.Nodup

/-!
# Maps that keep the order of their keys

A map as the list of its entries, oldest first: `set` replaces an entry where it stands, or adds one
at the end; `erase` drops a key, and `pop` the oldest. `put` is `set` with a bound on the number of
entries: the oldest makes room.
-/

namespace Assoc

variable {κ α : Type*} [DecidableEq κ]

def get (l : List (κ × α)) (k : κ) : Option α :=
  match l with
  | [] => none
  | x :: rest => if x.1 = k then some x.2 else get rest k

def set (l : List (κ × α)) (k : κ) (a : α) : List (κ × α) :=
  match l with
  | [] => [(k, a)]
  | x :: rest => if x.1 = k then (k, a) :: rest else x :: set rest k a

def erase (l : List (κ × α)) (k : κ) : List (κ × α) := l.filter fun x => x.1 ≠ k

def pop (l : List (κ × α)) : List (κ × α) :=
  match l with
  | [] => []
  | x :: _ => erase l x.1

def put (bound : ℕ) (l : List (κ × α)) (k : κ) (a : α) : List (κ × α) :=
  if (get l k).isNone ∧ bound ≤ l.length then set (pop l) k a else set l k a

theorem nodup_eraseDups (l : List κ) : l.eraseDups.Nodup := by
  induction hn : l.length using Nat.strongRecOn generalizing l with
  | _ n ih =>
    cases l with
    | nil => simp
    | cons a l =>
      rw [List.eraseDups_cons, List.nodup_cons]
      constructor
      · simp [List.mem_eraseDups]
      · refine ih _ ?_ _ rfl
        have hle := List.length_filter_le (fun b => !b == a) l
        simp only [List.length_cons] at hn
        omega

variable {l : List (κ × α)} {k j : κ} {a b : α}

theorem mem_of_get (h : get l k = some a) : (k, a) ∈ l := by
  induction l with
  | nil => cases h
  | cons x rest ih =>
    unfold get at h
    split at h
    case isTrue hk =>
      cases h
      subst hk
      exact List.mem_cons_self
    case isFalse => exact List.mem_cons_of_mem x (ih h)

variable {x : κ × α}

theorem get_isSome_of_mem (h : x ∈ l) : ∃ a, get l x.1 = some a := by
  induction l with
  | nil => cases h
  | cons y rest ih =>
    unfold get
    by_cases hy : y.1 = x.1
    · exact ⟨y.2, if_pos hy⟩
    · rw [if_neg hy]
      refine ih ((List.mem_cons.mp h).resolve_left ?_)
      rintro rfl
      exact hy rfl

/-- Where no key is there twice, what is found is what is there. -/
theorem get_eq_some_iff (hl : (l.map Prod.fst).Nodup) : get l k = some a ↔ (k, a) ∈ l := by
  constructor
  · exact mem_of_get
  · intro hmem
    obtain ⟨b, hb⟩ := get_isSome_of_mem hmem
    have hx : (k, a) = (k, b) := List.inj_on_of_nodup_map hl hmem (mem_of_get hb) rfl
    rw [hb, (Prod.mk.inj hx).2]

theorem get_set_self : get (set l k a) k = some a := by
  induction l with
  | nil => exact if_pos rfl
  | cons x rest ih =>
    unfold set
    split
    case isTrue => exact if_pos rfl
    case isFalse hx =>
      unfold get
      rw [if_neg hx]
      exact ih

theorem get_set_ne (h : j ≠ k) : get (set l k a) j = get l j := by
  induction l with
  | nil => exact if_neg (Ne.symm h)
  | cons x rest ih =>
    unfold set
    split
    case isTrue hx =>
      have hxj : x.1 ≠ j := hx ▸ Ne.symm h
      unfold get
      rw [if_neg (Ne.symm h), if_neg hxj]
    case isFalse =>
      unfold get
      rw [ih]

theorem mem_set (h : x ∈ set l k a) : x = (k, a) ∨ x ∈ l := by
  induction l with
  | nil => exact Or.inl (List.mem_singleton.mp h)
  | cons y rest ih =>
    unfold set at h
    split at h
    case isTrue => exact (List.mem_cons.mp h).imp_right (List.mem_cons_of_mem y)
    case isFalse =>
      rcases List.mem_cons.mp h with rfl | h
      · exact Or.inr List.mem_cons_self
      · exact (ih h).imp_right (List.mem_cons_of_mem y)

theorem mem_keys_set : j ∈ (set l k a).map Prod.fst ↔ j = k ∨ j ∈ l.map Prod.fst := by
  induction l with
  | nil => exact List.mem_cons
  | cons y rest ih =>
    unfold set
    split
    case isTrue hy =>
      rw [List.map_cons, List.map_cons, List.mem_cons, List.mem_cons, hy]
      exact (or_self_left).symm
    case isFalse =>
      rw [List.map_cons, List.map_cons, List.mem_cons, List.mem_cons, ih]
      exact or_left_comm

theorem nodup_keys_set (h : (l.map Prod.fst).Nodup) : ((set l k a).map Prod.fst).Nodup := by
  induction l with
  | nil => exact List.nodup_singleton k
  | cons y rest ih =>
    obtain ⟨hy, hrest⟩ := List.nodup_cons.mp h
    unfold set
    split
    case isTrue hk => exact List.nodup_cons.mpr ⟨hk ▸ hy, hrest⟩
    case isFalse hk =>
      refine List.nodup_cons.mpr ⟨fun hmem => ?_, ih hrest⟩
      exact (mem_keys_set.mp hmem).elim hk hy

/-- Where no key is there twice, `set` leaves the entries of the other keys. -/
theorem mem_set_iff (h : (l.map Prod.fst).Nodup) :
    (j, b) ∈ set l k a ↔ (j = k ∧ b = a) ∨ (j ≠ k ∧ (j, b) ∈ l) := by
  rw [← get_eq_some_iff (nodup_keys_set h), ← get_eq_some_iff h]
  by_cases hj : j = k
  · rw [hj, get_set_self]
    exact ⟨fun hb => Or.inl ⟨rfl, (Option.some.inj hb).symm⟩, fun hb =>
      hb.elim (fun hb => hb.2 ▸ rfl) fun hb => absurd rfl hb.1⟩
  · rw [get_set_ne hj]
    exact ⟨fun hb => Or.inr ⟨hj, hb⟩, fun hb => hb.elim (fun hb => absurd hb.1 hj) And.right⟩

/-- A key that is there adds no entry. -/
theorem length_set_of_get (h : get l k = some b) : (set l k a).length = l.length := by
  induction l with
  | nil => cases h
  | cons x rest ih =>
    unfold set
    split
    case isTrue => rfl
    case isFalse hx =>
      unfold get at h
      rw [if_neg hx] at h
      exact congrArg Nat.succ (ih h)

theorem length_set_le : (set l k a).length ≤ l.length + 1 := by
  induction l with
  | nil => exact Nat.le_refl 1
  | cons x rest ih =>
    unfold set
    split
    case isTrue => exact Nat.le_succ _
    case isFalse => exact Nat.succ_le_succ ih

theorem mem_erase : x ∈ erase l k ↔ x ∈ l ∧ x.1 ≠ k := by
  unfold erase
  rw [List.mem_filter, decide_eq_true_iff]

theorem get_erase_ne (h : j ≠ k) : get (erase l k) j = get l j := by
  induction l with
  | nil => rfl
  | cons x rest ih =>
    unfold erase at ih ⊢
    by_cases hx : x.1 = k
    · have hxj : x.1 ≠ j := hx ▸ Ne.symm h
      rw [List.filter_cons_of_neg (by simpa using hx), ih]
      exact (if_neg hxj).symm
    · rw [List.filter_cons_of_pos (by simpa using hx)]
      unfold get
      rw [ih]

theorem get_erase_self : get (erase l k) k = none := by
  cases hg : get (erase l k) k with
  | none => rfl
  | some a => exact absurd rfl (mem_erase.mp (mem_of_get hg)).2

theorem length_erase_lt (h : x ∈ l) : (erase l x.1).length < l.length :=
  List.length_filter_lt_length_iff_exists.mpr ⟨x, h, by simp⟩

/-- What is found after the oldest has gone was there. -/
theorem get_of_get_pop (h : get (pop l) k = some a) : get l k = some a := by
  cases l with
  | nil => cases h
  | cons x rest =>
    have hx : get (erase (x :: rest) x.1) k = some a := h
    by_cases hk : k = x.1
    · rw [hk, get_erase_self] at hx
      cases hx
    · rwa [get_erase_ne hk] at hx

theorem length_pop_le : (pop l).length ≤ l.length := by
  cases l with
  | nil => exact Nat.le_refl 0
  | cons x rest => exact Nat.le_of_lt (length_erase_lt List.mem_cons_self)

theorem length_pop_lt (h : 0 < l.length) : (pop l).length < l.length := by
  cases l with
  | nil => cases h
  | cons x rest => exact length_erase_lt List.mem_cons_self

variable {bound : ℕ}

theorem length_put (hpos : 0 < bound) (h : l.length ≤ bound) :
    (put bound l k a).length ≤ bound := by
  unfold put
  split
  case isTrue hc =>
    have hpop : (pop l).length < l.length := length_pop_lt (Nat.lt_of_lt_of_le hpos hc.2)
    have hset := length_set_le (l := pop l) (k := k) (a := a)
    omega
  case isFalse hc =>
    cases hg : get l k with
    | some b =>
      rw [length_set_of_get hg]
      exact h
    | none =>
      have hlt : l.length < bound := Nat.lt_of_not_le fun hle => hc ⟨by rw [hg]; rfl, hle⟩
      exact Nat.le_trans length_set_le hlt

theorem get_put_self : get (put bound l k a) k = some a := by
  unfold put
  split
  case isTrue | isFalse => exact get_set_self

theorem get_of_get_put (hj : j ≠ k) (h : get (put bound l k a) j = some b) : get l j = some b := by
  unfold put at h
  split at h
  case isTrue =>
    rw [get_set_ne hj] at h
    exact get_of_get_pop h
  case isFalse => rwa [get_set_ne hj] at h

end Assoc
