import Mathlib.Algebra.BigOperators.Group.List.Basic
import Mathlib.Algebra.Order.Field.Basic
import Mathlib.Tactic.Linarith

/-!
# Virtual schedules

A slot is asked for at `called`, starts at the later of that and the due time of the slot before it,
and is due `cost` after its start. `Chain due l` says that the slots `l` follow one another from the
due time `due` on.

* `Chain.sum_le`: the costs of a stretch of slots fit between its start and its last due time.
* **`Chain.window`**: the costs due in a window are within its length and one more cost.
-/

namespace Schedule

structure Slot (K : Type*) where
  called : K
  start : K
  cost : K
  due : K

variable {K : Type*} [Field K] [LinearOrder K] [IsStrictOrderedRing K]

def Chain : K → List (Slot K) → Prop
  | _, [] => True
  | due, s :: l => s.start = max s.called due ∧ s.due = s.start + s.cost ∧ Chain s.due l

variable {due : K} {s : Slot K} {l l' : List (Slot K)}

/-! ## One slot -/

omit [IsStrictOrderedRing K] in
theorem Chain.le_start (h : Chain due (s :: l)) : due ≤ s.start := by
  rw [h.1]
  exact le_max_right _ _

omit [IsStrictOrderedRing K] in
theorem Chain.called_le_start (h : Chain due (s :: l)) : s.called ≤ s.start := by
  rw [h.1]
  exact le_max_left _ _

theorem Chain.add_cost_le (h : Chain due (s :: l)) : due + s.cost ≤ s.due := by
  rw [h.2.1]
  linarith [h.le_start]

/-! ## A stretch of slots -/

omit [IsStrictOrderedRing K] in
theorem Chain.append_right (h : Chain due (l ++ l')) : ∃ due', Chain due' l' := by
  induction l generalizing due with
  | nil => exact ⟨due, h⟩
  | cons s l ih => exact ih h.2.2

omit [IsStrictOrderedRing K] in
theorem Chain.append_left (h : Chain due (l ++ l')) : Chain due l := by
  induction l generalizing due with
  | nil => exact trivial
  | cons s l ih => exact ⟨h.1, h.2.1, ih h.2.2⟩

omit [IsStrictOrderedRing K] in
theorem Chain.stretch (h : Chain due l) (hl : l' <:+: l) : ∃ due', Chain due' l' := by
  obtain ⟨a, b, rfl⟩ := hl
  exact (h.append_left).append_right

omit [IsStrictOrderedRing K] in
theorem Chain.next {i : ℕ} (h : Chain due l) (hi : i + 1 < l.length) :
    l[i + 1].start = max l[i + 1].called l[i].due := by
  obtain ⟨due', hdrop⟩ := h.stretch (List.drop_suffix i l).isInfix
  rw [List.drop_eq_getElem_cons (Nat.lt_of_succ_lt hi), List.drop_eq_getElem_cons hi] at hdrop
  exact hdrop.2.2.1

/-- A slot that costs nothing less than zero is not due before the slots before it. -/
theorem Chain.le_due (h : Chain due l) (hcost : ∀ s ∈ l, 0 ≤ s.cost) : ∀ s ∈ l, due ≤ s.due := by
  induction l generalizing due with
  | nil => exact fun s hs => absurd hs List.not_mem_nil
  | cons r l ih =>
    have hr := hcost r List.mem_cons_self
    have hdue : due ≤ r.due := by linarith [h.add_cost_le]
    rintro s (_ | ⟨_, hs⟩)
    · exact hdue
    · exact hdue.trans (ih h.2.2 (fun s hs => hcost s (List.mem_cons_of_mem r hs)) s hs)

theorem Chain.pairwise_due (h : Chain due l) (hcost : ∀ s ∈ l, 0 ≤ s.cost) :
    l.Pairwise fun s s' => s.due ≤ s'.due := by
  induction l generalizing due with
  | nil => exact List.Pairwise.nil
  | cons r l ih =>
    have hcost' : ∀ s ∈ l, 0 ≤ s.cost := fun s hs => hcost s (List.mem_cons_of_mem r hs)
    exact List.Pairwise.cons (Chain.le_due h.2.2 hcost') (ih h.2.2 hcost')

theorem Chain.called_le_due (h : Chain due l) (hcost : ∀ s ∈ l, 0 ≤ s.cost) :
    ∀ s ∈ l, s.called ≤ s.due := by
  intro s hs
  obtain ⟨a, b, rfl⟩ := List.append_of_mem hs
  obtain ⟨due', hs'⟩ := h.append_right
  have := hcost s hs
  have hle := hs'.called_le_start
  rw [hs'.2.1]
  linarith

/-- The costs up to a slot fit between `due` and its due time. -/
theorem Chain.add_sum_le (h : Chain due (l ++ [s])) :
    due + ((l ++ [s]).map Slot.cost).sum ≤ s.due := by
  induction l generalizing due with
  | nil =>
    rw [List.nil_append, List.map_singleton, List.sum_singleton]
    exact h.add_cost_le
  | cons r l ih =>
    have htail := ih h.2.2
    have hhead := h.add_cost_le
    rw [List.cons_append, List.map_cons, List.sum_cons]
    linarith

/-- The costs of a stretch of slots fit between its start and its last due time. -/
theorem Chain.sum_le {first last : Slot K} (h : Chain due l) (hf : l.head? = some first)
    (hl : l.getLast? = some last) : (l.map Slot.cost).sum ≤ last.due - first.start := by
  obtain ⟨init, rfl⟩ := List.getLast?_eq_some_iff.mp hl
  cases init with
  | nil =>
    obtain rfl : last = first := Option.some.inj hf
    have hdue := h.2.1
    rw [List.nil_append, List.map_singleton, List.sum_singleton]
    linarith
  | cons r init =>
    obtain rfl : r = first := Option.some.inj hf
    have hdue := h.2.1
    have htail := Chain.add_sum_le (l := init) h.2.2
    rw [List.cons_append, List.map_cons, List.sum_cons]
    linarith

/-! ## A window -/

/-- What is due from `due` to `hi` fits between them. -/
theorem Chain.sum_filter_le (h : Chain due l) (hcost : ∀ s ∈ l, 0 ≤ s.cost) {hi : K}
    (hhi : due ≤ hi) : ((l.filter fun s => s.due ≤ hi).map Slot.cost).sum ≤ hi - due := by
  induction l generalizing due with
  | nil =>
    rw [List.filter_nil, List.map_nil, List.sum_nil]
    linarith
  | cons r l ih =>
    have hcost' : ∀ s ∈ l, 0 ≤ s.cost := fun s hs => hcost s (List.mem_cons_of_mem r hs)
    by_cases hr : r.due ≤ hi
    · have htail := ih h.2.2 hcost' hr
      have hhead := h.add_cost_le
      rw [List.filter_cons, if_pos (decide_eq_true hr), List.map_cons, List.sum_cons]
      linarith
    · -- every slot after one that is due too late is due too late
      have hnone : l.filter (fun s => decide (s.due ≤ hi)) = [] := by
        refine List.filter_eq_nil_iff.mpr fun s hs hle => ?_
        have := Chain.le_due h.2.2 hcost' s hs
        linarith [of_decide_eq_true hle, not_le.mp hr]
      rw [List.filter_cons, if_neg (by simpa using hr), hnone, List.map_nil, List.sum_nil]
      linarith

/-- **The costs due in a window** are within its length and one more cost. -/
theorem Chain.window (h : Chain due l) (hcost : ∀ s ∈ l, 0 ≤ s.cost) {lo hi big : K}
    (hlo : lo ≤ hi) (hbig : 0 ≤ big) (hle : ∀ s ∈ l, s.cost ≤ big) :
    ((l.filter fun s => lo ≤ s.due ∧ s.due ≤ hi).map Slot.cost).sum ≤ hi - lo + big := by
  induction l generalizing due with
  | nil =>
    rw [List.filter_nil, List.map_nil, List.sum_nil]
    linarith
  | cons r l ih =>
    have hcost' : ∀ s ∈ l, 0 ≤ s.cost := fun s hs => hcost s (List.mem_cons_of_mem r hs)
    have htail := ih h.2.2 hcost' fun s hs => hle s (List.mem_cons_of_mem r hs)
    by_cases hr : lo ≤ r.due ∧ r.due ≤ hi
    · have hall : l.filter (fun s => decide (lo ≤ s.due ∧ s.due ≤ hi)) =
          l.filter fun s => decide (s.due ≤ hi) := by
        refine List.filter_congr fun s hs => decide_eq_decide.mpr ?_
        exact and_iff_right (hr.1.trans (Chain.le_due h.2.2 hcost' s hs))
      have hrest := Chain.sum_filter_le h.2.2 hcost' hr.2
      have hfirst := hle r List.mem_cons_self
      rw [List.filter_cons, if_pos (decide_eq_true hr), hall, List.map_cons, List.sum_cons]
      linarith [hr.1]
    · rw [List.filter_cons, if_neg (by simpa using hr)]
      exact htail

end Schedule
