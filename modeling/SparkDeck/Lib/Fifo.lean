import Mathlib.Data.List.Basic
import Mathlib.Tactic.Linarith

/-!
# One pass of a FIFO counting gate

`drain live limit active queue` is the loop every FIFO counting gate runs when a slot may have
become free: while fewer than `limit` slots are taken and the queue is not empty, take the head of
the queue; drop it when it is no longer alive, else give it a slot. The pass reports the waiters it
admitted, each with the number of slots taken at that moment, the number taken afterwards, and
what is left of the queue.

* `drain_active`: the count grows by exactly the waiters admitted.
* `drain_split`: what is left is a suffix of the queue, and the admitted are the live waiters of
  the prefix, in queue order. Nobody is overtaken.
* `drain_below`: a waiter is only admitted below the limit.
* `drain_full`: the pass stops with the queue empty or the gate full.
-/

namespace Fifo

variable {ι : Type*}

/-- What one pass did. -/
structure Pass (ι : Type*) where
  /-- The admitted, in order, each with the slots taken when it was admitted. -/
  granted : List (ι × ℤ)
  active : ℤ
  waiting : List ι

/-- One pass over the queue. -/
def drain (live : ι → Bool) (limit : ℤ) : ℤ → List ι → Pass ι
  | active, [] => ⟨[], active, []⟩
  | active, w :: ws =>
    if active < limit then
      if live w then
        let p := drain live limit (active + 1) ws
        { p with granted := (w, active) :: p.granted }
      else drain live limit active ws
    else ⟨[], active, w :: ws⟩

/-- The admitted waiters, without the counts. -/
def Pass.admitted (p : Pass ι) : List ι := p.granted.map Prod.fst

variable {live : ι → Bool} {limit : ℤ}

variable {active : ℤ}

theorem drain_stop (h : ¬ active < limit) (w : ι) (ws : List ι) :
    drain live limit active (w :: ws) = ⟨[], active, w :: ws⟩ := by
  simp only [drain, if_neg h]

theorem drain_drop (h : active < limit) {w : ι} (hw : live w = false) (ws : List ι) :
    drain live limit active (w :: ws) = drain live limit active ws := by
  simp only [drain, if_pos h, hw, Bool.false_eq_true, if_false]

theorem drain_grant (h : active < limit) {w : ι} (hw : live w) (ws : List ι) :
    drain live limit active (w :: ws) =
      { drain live limit (active + 1) ws with
        granted := (w, active) :: (drain live limit (active + 1) ws).granted } := by
  simp only [drain, if_pos h, hw, if_true]

/-- The induction of the loop: the queue is empty, the gate is full, the head is dead, or the head
is admitted. -/
theorem drain_induction (live : ι → Bool) (limit : ℤ) {P : ℤ → List ι → Pass ι → Prop}
    (nil : ∀ a, P a [] ⟨[], a, []⟩)
    (stop : ∀ a w ws, ¬ a < limit → P a (w :: ws) ⟨[], a, w :: ws⟩)
    (drop : ∀ a w ws p, a < limit → live w = false → P a ws p → P a (w :: ws) p)
    (grant : ∀ a w ws p, a < limit → live w → P (a + 1) ws p →
      P a (w :: ws) { p with granted := (w, a) :: p.granted }) :
    ∀ (queue : List ι) (active : ℤ), P active queue (drain live limit active queue)
  | [], a => nil a
  | w :: ws, a => by
    by_cases ha : a < limit
    · cases hw : live w with
      | false =>
        rw [drain_drop ha hw]
        exact drop a w ws _ ha hw (drain_induction live limit nil stop drop grant ws a)
      | true =>
        rw [drain_grant ha hw]
        exact grant a w ws _ ha hw (drain_induction live limit nil stop drop grant ws (a + 1))
    · rw [drain_stop ha]
      exact stop a w ws ha

/-- The count grows by exactly the waiters admitted. -/
theorem drain_active (queue : List ι) (active : ℤ) :
    (drain live limit active queue).active =
      active + (drain live limit active queue).admitted.length :=
  drain_induction live limit (P := fun a _ p => p.active = a + p.admitted.length)
    (fun a => by simp [Pass.admitted]) (fun a w ws _ => by simp [Pass.admitted])
    (fun _ _ _ _ _ _ h => h)
    (fun a w ws p _ _ h => by
      simp only [Pass.admitted, List.map_cons, List.length_cons, List.length_map] at h ⊢
      push_cast
      linarith)
    queue active

/-- **Nobody is overtaken**: what is left is a suffix of the queue, and the admitted are the live
waiters of the prefix, in queue order. -/
theorem drain_split (queue : List ι) (active : ℤ) :
    ∃ front, queue = front ++ (drain live limit active queue).waiting ∧
      (drain live limit active queue).admitted = front.filter live :=
  drain_induction live limit
    (P := fun _ q p => ∃ front, q = front ++ p.waiting ∧ p.admitted = front.filter live)
    (fun a => ⟨[], rfl, rfl⟩) (fun a w ws _ => ⟨[], rfl, rfl⟩)
    (fun a w ws p _ hw ⟨front, h1, h2⟩ => ⟨w :: front, by rw [h1]; rfl, by
      rw [List.filter_cons_of_neg (by simp [hw])]; exact h2⟩)
    (fun a w ws p _ hw ⟨front, h1, h2⟩ => ⟨w :: front, by rw [h1]; rfl, by
      rw [List.filter_cons_of_pos (by simp [hw]), ← h2]; rfl⟩)
    queue active

/-- A waiter is only admitted at a moment when fewer than `limit` slots are taken. -/
theorem drain_below (queue : List ι) (active : ℤ) :
    ∀ x ∈ (drain live limit active queue).granted, x.2 < limit :=
  drain_induction live limit (P := fun _ _ p => ∀ x ∈ p.granted, x.2 < limit)
    (fun a x hx => absurd hx List.not_mem_nil) (fun a w ws _ x hx => absurd hx List.not_mem_nil)
    (fun _ _ _ _ _ _ h => h)
    (fun a w ws p ha _ h x hx => by
      rcases List.mem_cons.mp hx with rfl | hx
      · exact ha
      · exact h x hx)
    queue active

/-- **The pass stops** with the queue empty or the gate full. -/
theorem drain_full (queue : List ι) (active : ℤ)
    (h : (drain live limit active queue).active < limit) :
    (drain live limit active queue).waiting = [] :=
  drain_induction live limit (P := fun _ _ p => p.active < limit → p.waiting = [])
    (fun _ _ => rfl) (fun _ _ _ ha h => absurd h ha) (fun _ _ _ _ _ _ h => h)
    (fun _ _ _ _ _ _ h => h) queue active h

theorem mem_admitted {queue : List ι} {w : ι} (h : w ∈ (drain live limit active queue).admitted) :
    w ∈ queue ∧ live w := by
  obtain ⟨front, hq, ha⟩ := @drain_split _ live limit queue active
  rw [ha, List.mem_filter] at h
  rw [hq]
  exact ⟨List.mem_append_left _ h.1, h.2⟩

theorem drain_waiting_sublist (queue : List ι) (active : ℤ) :
    (drain live limit active queue).waiting.Sublist queue := by
  obtain ⟨front, hq, -⟩ := @drain_split _ live limit queue active
  conv_rhs => rw [hq]
  exact List.sublist_append_right _ _

/-- A live waiter of the queue is admitted or still waiting. -/
theorem mem_admitted_or_waiting {queue : List ι} {w : ι} (hw : w ∈ queue) (hl : live w) :
    w ∈ (drain live limit active queue).admitted ∨
      w ∈ (drain live limit active queue).waiting := by
  obtain ⟨front, hq, ha⟩ := @drain_split _ live limit queue active
  rw [hq, List.mem_append] at hw
  rcases hw with hw | hw
  · exact Or.inl (by rw [ha]; exact List.mem_filter.mpr ⟨hw, hl⟩)
  · exact Or.inr hw

/-- In a queue sorted by `R` (arrival order), everyone admitted is before everyone left, and the
admitted come out sorted. -/
theorem admitted_pairwise {R : ι → ι → Prop} {queue : List ι} (h : queue.Pairwise R) :
    (drain live limit active queue).admitted.Pairwise R ∧
      ∀ a ∈ (drain live limit active queue).admitted,
        ∀ b ∈ (drain live limit active queue).waiting, R a b := by
  obtain ⟨front, hq, ha⟩ := @drain_split _ live limit queue active
  rw [hq, List.pairwise_append] at h
  refine ⟨by rw [ha]; exact h.1.filter _, fun a h1 b h2 => ?_⟩
  rw [ha] at h1
  exact h.2.2 a (List.mem_filter.mp h1).1 b h2

end Fifo
