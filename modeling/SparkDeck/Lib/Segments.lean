import Mathlib.Data.List.Induction
import Mathlib.Data.List.Nodup

/-!
# Lists laid out in segments

`Laid S l t` says that `t` is a sequence of segments, one for each entry of `l` in its order, where
`S i x seg` is what the segment of the `i`-th entry `x` looks like.

* `Laid.mem`: whatever is in `t` is in the segment of an entry.
* `Laid.filter`: when each element of a segment bears the key of its entry, and no two entries have
  the same key, the elements with the key of an entry are its segment.
-/

namespace Segments

variable {α β κ : Type*} {S : ℕ → α → List β → Prop} {l : List α} {t seg : List β} {x : α} {b : β}
  {i : ℕ}

/-- An entry of a list with one more at its end. -/
theorem getElem?_snoc {y : α} (hx : (l ++ [y])[i]? = some x) :
    i < l.length ∧ l[i]? = some x ∨ i = l.length ∧ y = x := by
  by_cases hi : i < l.length
  · rw [List.getElem?_append_left hi] at hx
    exact Or.inl ⟨hi, hx⟩
  · have hlen := (List.getElem?_eq_some_iff.mp hx).1
    rw [List.length_append, List.length_singleton] at hlen
    obtain rfl : i = l.length := by omega
    rw [List.getElem?_append_right (Nat.le_refl _), Nat.sub_self] at hx
    exact Or.inr ⟨rfl, Option.some.inj hx⟩

inductive Laid (S : ℕ → α → List β → Prop) : List α → List β → Prop where
  | nil : Laid S [] []
  | snoc {l : List α} {t : List β} {x : α} {seg : List β} :
      Laid S l t → S l.length x seg → Laid S (l ++ [x]) (t ++ seg)

theorem Laid.mono {S' : ℕ → α → List β → Prop} (hS : ∀ i x seg, S i x seg → S' i x seg)
    (h : Laid S l t) : Laid S' l t := by
  induction h with
  | nil => exact Laid.nil
  | snoc _ hseg ih => exact ih.snoc (hS _ _ _ hseg)

theorem Laid.single (h : S 0 x seg) : Laid S [x] seg := Laid.snoc Laid.nil h

theorem laid_nil (h : Laid S [] t) : t = [] := by
  generalize hl : ([] : List α) = l at h
  cases h with
  | nil => rfl
  | snoc => simp at hl

theorem laid_single (h : Laid S [x] t) : S 0 x t := by
  generalize hl : [x] = l at h
  cases h with
  | nil => cases hl
  | @snoc l t y seg hl' hseg =>
    obtain ⟨rfl, hxy⟩ := List.append_inj' (show [] ++ [x] = l ++ [y] from hl) rfl
    obtain ⟨rfl, -⟩ := List.cons.inj hxy
    rw [laid_nil hl']
    exact hseg

/-- Nothing, for entries that may have nothing. -/
theorem laid_empty (hS : ∀ i x, S i x []) (l : List α) : Laid S l [] := by
  induction l using List.reverseRecOn with
  | nil => exact Laid.nil
  | append_singleton l x ih => exact ih.snoc (hS _ x)

theorem Laid.segment (h : Laid S l t) (hx : l[i]? = some x) : ∃ seg, S i x seg := by
  induction h with
  | nil => cases hx
  | @snoc l t y seg _ hseg ih =>
    rcases getElem?_snoc hx with ⟨-, hx⟩ | ⟨rfl, rfl⟩
    · exact ih hx
    · exact ⟨seg, hseg⟩

theorem Laid.mem (h : Laid S l t) (hb : b ∈ t) :
    ∃ i x seg, l[i]? = some x ∧ S i x seg ∧ b ∈ seg := by
  induction h with
  | nil => cases hb
  | @snoc l t x seg _ hseg ih =>
    rcases List.mem_append.mp hb with hb | hb
    · obtain ⟨i, y, seg', hi, hs, hb⟩ := ih hb
      refine ⟨i, y, seg', ?_, hs, hb⟩
      rw [List.getElem?_append_left (List.getElem?_eq_some_iff.mp hi).1, hi]
    · exact ⟨l.length, x, seg, by simp, hseg, hb⟩

variable [DecidableEq κ] (key : α → κ) (of : β → Option κ)

/-- The elements with a key that no entry has. -/
theorem Laid.filter_absent (hS : ∀ i x seg, S i x seg → ∀ b ∈ seg, of b = some (key x))
    (h : Laid S l t) {k : κ} (hk : k ∉ l.map key) : t.filter (fun b => of b = some k) = [] := by
  refine List.filter_eq_nil_iff.mpr fun b hb he => ?_
  obtain ⟨i, x, seg, hi, hs, hb⟩ := h.mem hb
  have hx : key x = k := Option.some.inj ((hS i x seg hs b hb).symm.trans (of_decide_eq_true he))
  exact hk (List.mem_map.mpr ⟨x, List.mem_of_getElem? hi, hx⟩)

/-- The elements with the key of an entry are its segment. -/
theorem Laid.filter (hS : ∀ i x seg, S i x seg → ∀ b ∈ seg, of b = some (key x))
    (h : Laid S l t) (hn : (l.map key).Nodup) (hx : l[i]? = some x) :
    S i x (t.filter fun b => of b = some (key x)) := by
  induction h with
  | nil => cases hx
  | @snoc l t y seg hl hseg ih =>
    rw [List.map_append, List.map_singleton] at hn
    obtain ⟨hn, -, hne⟩ := List.nodup_append.mp hn
    have hy : key y ∉ l.map key := fun hmem => hne _ hmem _ (List.mem_singleton_self _) rfl
    rw [List.filter_append]
    rcases getElem?_snoc hx with ⟨-, hx⟩ | ⟨rfl, rfl⟩
    · have hxy : key x ≠ key y := fun he => hy (he ▸ List.mem_map_of_mem (List.mem_of_getElem? hx))
      have hseg' : seg.filter (fun b => of b = some (key x)) = [] := by
        refine List.filter_eq_nil_iff.mpr fun b hb he => ?_
        rw [decide_eq_true_eq, hS _ y seg hseg b hb] at he
        exact hxy (Option.some.inj he).symm
      rw [hseg', List.append_nil]
      exact ih hn hx
    · have hself : seg.filter (fun b => of b = some (key y)) = seg :=
        List.filter_eq_self.mpr fun b hb => decide_eq_true (hS _ y seg hseg b hb)
      rw [Laid.filter_absent key of hS hl hy, List.nil_append, hself]
      exact hseg

end Segments
