import Mathlib.Data.List.Infix

/-!
# Labels of a name

A name such as `a.b.c` is the list of its labels, what `splitOn` leaves between the separators.

* `suffix_splitOn_iff`: the last labels of a name are those of another exactly when the name is the
  other, or ends with a separator and the other.
-/

namespace Labels

variable {α : Type*}

theorem intercalate_append (sep : List α) {ls ms : List (List α)} (hl : ls ≠ []) (hm : ms ≠ []) :
    sep.intercalate (ls ++ ms) = sep.intercalate ls ++ sep ++ sep.intercalate ms := by
  induction ls with
  | nil => exact absurd rfl hl
  | cons l ls ih =>
    cases ls with
    | nil =>
      obtain ⟨m, ms, rfl⟩ := List.exists_cons_of_ne_nil hm
      rw [List.singleton_append, List.intercalate_cons_cons, List.intercalate_singleton]
    | cons l' ls =>
      rw [List.cons_append, List.cons_append, List.intercalate_cons_cons, ← List.cons_append,
        ih (List.cons_ne_nil l' ls), List.intercalate_cons_cons]
      simp only [List.append_assoc]

variable [DecidableEq α] {x : α} {name last : List α}

theorem splitOn_injective (h : name.splitOn x = last.splitOn x) : name = last := by
  have hname : [x].intercalate (name.splitOn x) = name := List.intercalate_splitOn x
  rw [← hname, h, List.intercalate_splitOn]

theorem suffix_splitOn_iff :
    last.splitOn x <:+ name.splitOn x ↔ name = last ∨ x :: last <:+ name := by
  constructor
  · rintro ⟨labels, h⟩
    by_cases hlabels : labels = []
    · rw [hlabels, List.nil_append] at h
      exact Or.inl (splitOn_injective h.symm)
    · have hname : name = [x].intercalate labels ++ [x] ++ last := calc
        name = [x].intercalate (name.splitOn x) := (List.intercalate_splitOn x).symm
        _ = [x].intercalate labels ++ [x] ++ [x].intercalate (last.splitOn x) := by
          rw [← h, intercalate_append [x] hlabels (List.splitOn_ne_nil x last)]
        _ = [x].intercalate labels ++ [x] ++ last := by rw [List.intercalate_splitOn]
      refine Or.inr ⟨[x].intercalate labels, ?_⟩
      rw [hname, List.append_assoc]
      rfl
  · rintro (rfl | ⟨start, rfl⟩)
    · exact List.suffix_refl _
    · rw [List.splitOn_append_cons_self]
      exact List.suffix_append _ _

end Labels
