import Mathlib.Data.List.Induction
import Mathlib.Data.List.Nodup

/-!
# Dictionaries that keep the order of insertion

`push` is `d.setdefault(k, init)` followed by an update of the entry: a new key goes last. `gather`
is a run of pushes. `gather_eq` says what it builds: the keys in the order in which they were first
seen, each with the fold of its own values.
-/

namespace Gather

variable {κ α β : Type*} [DecidableEq κ] {init : α} {op : α → β → α}

def push (init : α) (op : α → β → α) : List (κ × α) → κ → β → List (κ × α)
  | [], k, b => [(k, op init b)]
  | (j, a) :: d, k, b => if j = k then (j, op a b) :: d else (j, a) :: push init op d k b

def gather (init : α) (op : α → β → α) (l : List (κ × β)) : List (κ × α) :=
  l.foldl (fun d x => push init op d x.1 x.2) []

/-- The keys in the order of their first occurrences. -/
def firstSeen (ks : List κ) : List κ :=
  ks.foldl (fun seen k => if k ∈ seen then seen else seen ++ [k]) []

/-- The values of one key. -/
def valuesOf (l : List (κ × β)) (k : κ) : List β := (l.filter fun x => x.1 = k).map Prod.snd

theorem push_map {ks : List κ} {f : κ → α} {k : κ} {b : β} (hk : k ∈ ks) (hd : ks.Nodup) :
    push init op (ks.map fun j => (j, f j)) k b =
      ks.map fun j => (j, if j = k then op (f j) b else f j) := by
  induction ks with
  | nil => exact absurd hk List.not_mem_nil
  | cons j ks ih =>
    obtain ⟨hj, hd⟩ := List.nodup_cons.mp hd
    rw [List.map_cons, List.map_cons, push]
    by_cases hjk : j = k
    · subst hjk
      rw [if_pos rfl, if_pos rfl]
      congr 1
      refine List.map_congr_left fun i hi => ?_
      rw [if_neg fun he : i = j => hj (he ▸ hi)]
    · have hk' : k ∈ ks := (List.mem_cons.mp hk).resolve_left fun he => hjk he.symm
      rw [if_neg hjk, if_neg hjk, ih hk' hd]

theorem push_new {ks : List κ} {f : κ → α} {k : κ} {b : β} (hk : k ∉ ks) :
    push init op (ks.map fun j => (j, f j)) k b =
      (ks.map fun j => (j, f j)) ++ [(k, op init b)] := by
  induction ks with
  | nil => rfl
  | cons j ks ih =>
    obtain ⟨hkj, hk⟩ := not_or.mp (mt List.mem_cons.mpr hk)
    rw [List.map_cons, push, if_neg fun he => hkj he.symm, ih hk, List.cons_append]

theorem push_congr {d : List (κ × α)} {k : κ} {b b' : β} (h : ∀ a, op a b = op a b') :
    push init op d k b = push init op d k b' := by
  induction d with
  | nil => rw [push, push, h]
  | cons x d ih => rw [push, push, ih, h]

theorem firstSeen_append (ks : List κ) (k : κ) :
    firstSeen (ks ++ [k]) = if k ∈ firstSeen ks then firstSeen ks else firstSeen ks ++ [k] := by
  rw [firstSeen, List.foldl_append]
  rfl

theorem firstSeen_spec (ks : List κ) :
    (firstSeen ks).Nodup ∧ ∀ k, k ∈ firstSeen ks ↔ k ∈ ks := by
  induction ks using List.reverseRecOn with
  | nil => exact ⟨List.nodup_nil, fun _ => Iff.rfl⟩
  | append_singleton ks k ih =>
    obtain ⟨hd, hm⟩ := ih
    rw [firstSeen_append]
    by_cases hk : k ∈ firstSeen ks
    · rw [if_pos hk]
      refine ⟨hd, fun j => ?_⟩
      rw [hm, List.mem_append, List.mem_singleton]
      exact ⟨Or.inl, fun h => h.elim id fun hj => hj ▸ (hm k).mp hk⟩
    · rw [if_neg hk]
      refine ⟨List.nodup_append.mpr ⟨hd, List.nodup_singleton k, ?_⟩, fun j => ?_⟩
      · rintro a ha b hb rfl
        exact hk (List.mem_singleton.mp hb ▸ ha)
      · rw [List.mem_append, List.mem_append, hm]

theorem valuesOf_append (l : List (κ × β)) (x : κ × β) (k : κ) :
    valuesOf (l ++ [x]) k = if x.1 = k then valuesOf l k ++ [x.2] else valuesOf l k := by
  rw [valuesOf, List.filter_append, List.map_append]
  by_cases h : x.1 = k
  · simp [valuesOf, h]
  · simp [valuesOf, h]

theorem valuesOf_eq_nil {l : List (κ × β)} {k : κ} (h : k ∉ l.map Prod.fst) :
    valuesOf l k = [] := by
  rw [valuesOf, List.map_eq_nil_iff, List.filter_eq_nil_iff]
  intro x hx hk
  exact h (List.mem_map.mpr ⟨x, hx, of_decide_eq_true hk⟩)

/-- What a run of pushes builds. -/
theorem gather_eq (l : List (κ × β)) :
    gather init op l =
      (firstSeen (l.map Prod.fst)).map fun k => (k, (valuesOf l k).foldl op init) := by
  induction l using List.reverseRecOn with
  | nil => rfl
  | append_singleton l x ih =>
    have hstep : gather init op (l ++ [x]) = push init op (gather init op l) x.1 x.2 := by
      rw [gather, List.foldl_append]
      rfl
    obtain ⟨hd, hm⟩ := firstSeen_spec (l.map Prod.fst)
    rw [hstep, ih, List.map_append, List.map_singleton, firstSeen_append]
    by_cases hk : x.1 ∈ firstSeen (l.map Prod.fst)
    · rw [if_pos hk, push_map hk hd]
      refine List.map_congr_left fun k _ => ?_
      rw [valuesOf_append]
      by_cases hkx : k = x.1
      · rw [if_pos hkx, if_pos hkx.symm, List.foldl_append]
        rfl
      · rw [if_neg hkx, if_neg fun he => hkx he.symm]
    · rw [if_neg hk, push_new hk, List.map_append]
      congr 1
      · refine List.map_congr_left fun k hk' => ?_
        have hne : x.1 ≠ k := fun he => hk (he ▸ hk')
        rw [valuesOf_append, if_neg hne]
      · have hnil := valuesOf_eq_nil fun h => hk ((hm x.1).mpr h)
        rw [List.map_singleton, valuesOf_append, if_pos rfl, hnil]
        rfl

end Gather
