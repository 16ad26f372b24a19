import SparkDeck.PromptGate.Gate
import SparkDeck.PromptGate.StreamSafety

/-!
# One gate and all its runs

The calls of `PromptGate.run` on one gate (`sparkdeck/prompt_gate.py:42-124`, `:185-273`). A call waits
in `acquire`; once that has returned it is a run of `Stream`, whose `lease.release()` is the release
of its lease at the gate. The turns of the gate and of all runs come in any order. A run without a
cancel event is one whose event is never set.

* `slots_kept`: a slot that is taken belongs to an `acquire` that has not ended or to a run that is
  not over, no run gives its slot back twice, and a slot that is given back leaves no live waiter
  below the limit.
-/

namespace SparkDeck.PromptGate

open Transition Function SparkDeck.PromptGate.Stream

/-- The gate, and what is made of each lease. -/
structure Hall (D Chunk : Type*) where
  gate : Gate
  runs : Ticket → World D Chunk

inductive Turn (Chunk : Type*) where
  | gate (e : Label)
  | run (t : Ticket) (e : Stream.Label Chunk)

def Label.releases : Label → Bool
  | .release _ => true
  | _ => false

variable {D Chunk : Type*}

namespace Hall

def init (limit : ℤ) (d : D) : Hall D Chunk := ⟨Gate.init limit, fun _ => World.init true d⟩

/-- The `acquire` of the call raised, or its run is over. -/
def ended (h : Hall D Chunk) (t : Ticket) : Bool :=
  (h.gate.calls t).stage = .raised || (h.gate.calls t).stage = .returned && isOver (h.runs t)

/-- Only a run releases its lease. -/
def step [DecidableEq Chunk] (feed : D → Chunk → D × Bool) (h : Hall D Chunk) :
    Turn Chunk → Option (Hall D Chunk)
  | .gate e =>
    if e.releases then none else (PromptGate.step h.gate e).map fun g => { h with gate := g }
  | .run t e =>
    if (h.gate.calls t).stage = .returned then
      (Stream.step feed (h.runs t) e).map fun w =>
        { gate := if w.lease.released then h.gate.release t else h.gate
          runs := update h.runs t w }
    else none

end Hall

/-! ## The calls that have returned -/

section Gate

variable {g g' : Gate} {e : Label} {t u : Ticket}

theorem release_call (g : Gate) (t u : Ticket) :
    ((g.release t).calls u).stage = (g.calls u).stage ∧
      ((g.release t).calls u).released = ((g.calls u).released || u = t) := by
  unfold Gate.release
  split
  case isTrue hr =>
    refine ⟨rfl, ?_⟩
    by_cases hu : u = t
    · simp [hu, hr]
    · simp [hu]
  case isFalse =>
    rw [refresh_stage, refresh_released]
    by_cases hu : u = t
    · simp [hu, Gate.setCall]
    · simp [hu, Gate.setCall]

theorem unwind_call (g : Gate) (hu : u ≠ t) :
    ((g.unwind t).calls u).stage = (g.calls u).stage ∧
      ((g.unwind t).calls u).released = (g.calls u).released := by
  simp only [Gate.unwind]
  split
  · obtain ⟨hs, hr⟩ := release_call (g.setCall t { g.calls t with stage := .raised }) t u
    rw [hs, hr, setCall_of_ne g _ hu]
    simp [hu]
  · rw [setCall_of_ne g _ hu]
    exact ⟨rfl, rfl⟩

/-- A turn of the gate leaves a call that has returned, and its lease. -/
theorem returned_kept (hi : Inv g) (he : e.releases = false) (hs : step g e = some g')
    (hu : (g.calls u).stage = .returned) :
    (g'.calls u).stage = (g.calls u).stage ∧ (g'.calls u).released = (g.calls u).released := by
  cases e with
  | acquire cancel =>
    cases hs
    have hne : u ≠ g.next := by
      rintro rfl
      rw [hi.fresh _ (Nat.le_refl _)] at hu
      cases hu
    have hq : (g.enqueue cancel).calls u = g.calls u := setCall_of_ne g _ hne
    obtain ha | ha | ⟨-, ha⟩ := acquire_cases g cancel
    · rw [ha]
      exact ⟨rfl, rfl⟩
    · rw [ha, refresh_stage, refresh_released, hq]
      exact ⟨rfl, rfl⟩
    · rw [ha, setCall_of_ne _ _ hne, refresh_stage, refresh_released, hq]
      exact ⟨rfl, rfl⟩
  | resume t =>
    have hne : u ≠ t := by
      rintro rfl
      simp [step, Gate.resume, hu] at hs
    obtain ⟨-, rfl | ⟨-, stage, -, rfl⟩⟩ := resume_cases hs
    · exact unwind_call g hne
    · rw [setCall_of_ne g _ hne]
      exact ⟨rfl, rfl⟩
  | throw t =>
    have hne : u ≠ t := by
      rintro rfl
      simp [step, Gate.throw, hu] at hs
    obtain ⟨-, rfl⟩ := throw_cases hs
    exact unwind_call g hne
  | release t => cases he
  | refresh =>
    cases hs
    exact ⟨refresh_stage g u, refresh_released g u⟩
  | setLimit n | setEvent e =>
    cases hs
    exact ⟨rfl, rfl⟩

end Gate

/-! ## Every order of turns -/

namespace Hall

variable {h h' : Hall D Chunk}

structure Inv (h : Hall D Chunk) : Prop where
  gate : PromptGate.Inv h.gate
  lease : ∀ t, LeaseInv (h.runs t)
  /-- A run that has released its lease has given its slot back. -/
  given : ∀ t, (h.runs t).lease.released →
    (h.gate.calls t).stage = .returned ∧ (h.gate.calls t).released

theorem Inv.free (hi : Inv h) {t : Ticket} (ht : h.ended t) :
    t ∉ h.gate.held ∧ t ∉ h.gate.waiting := by
  rw [hi.gate.mem_held, hi.gate.queued]
  simp only [ended, isOver, Bool.or_eq_true, Bool.and_eq_true, decide_eq_true_eq] at ht
  obtain hraised | ⟨hreturned, hover⟩ := ht
  · simp [hi.gate.raised t hraised]
  · have hrel : (h.runs t).lease.released := by
      obtain hdone | ⟨⟨-, hdone⟩, hcallback⟩ := hover
      · exact (hi.lease t).done hdone
      · exact (hi.lease t).finished hdone (by simpa using hcallback)
    simp [Call.holds, Gate.live, hi.gate.returned t hreturned, (hi.given t hrel).2]

variable [DecidableEq Chunk] {feed : D → Chunk → D × Bool} {m : Turn Chunk}

theorem gate_cases {e : Label} (hs : h.step feed (.gate e) = some h') :
    e.releases = false ∧ PromptGate.step h.gate e = some h'.gate ∧ h'.runs = h.runs := by
  obtain ⟨he, hs⟩ := Option.ite_none_left_eq_some.mp hs
  obtain ⟨g, hg, rfl⟩ := Option.map_eq_some_iff.mp hs
  exact ⟨by simpa using he, hg, rfl⟩

theorem run_cases {t : Ticket} {e : Stream.Label Chunk} (hs : h.step feed (.run t e) = some h') :
    (h.gate.calls t).stage = .returned ∧ h'.runs = update h.runs t (effect feed (h.runs t) e) ∧
      h'.gate = if (h'.runs t).lease.released then h.gate.release t else h.gate := by
  obtain ⟨hst, hs⟩ := Option.ite_none_right_eq_some.mp hs
  obtain ⟨w, hw, rfl⟩ := Option.map_eq_some_iff.mp hs
  obtain ⟨-, rfl⟩ := step_iff.mp hw
  exact ⟨hst, rfl, by simp⟩

/-- The gate takes a turn of its own, releases a lease, or stays. -/
theorem gate_turn (hs : h.step feed m = some h') :
    h'.gate = h.gate ∨ ∃ e, PromptGate.step h.gate e = some h'.gate := by
  cases m with
  | gate e => exact .inr ⟨e, (gate_cases hs).2.1⟩
  | run t e =>
    obtain ⟨hst, -, hgate⟩ := run_cases hs
    rw [hgate]
    split
    · exact .inr ⟨.release t, if_pos hst⟩
    · exact .inl rfl

theorem Inv.step (hi : Inv h) (hs : h.step feed m = some h') : Inv h' := by
  have hgate : PromptGate.Inv h'.gate := by
    obtain hg | ⟨e, hg⟩ := gate_turn hs
    · exact hg ▸ hi.gate
    · exact hi.gate.step hg
  cases m with
  | gate e =>
    obtain ⟨he, hg, hruns⟩ := gate_cases hs
    refine ⟨hgate, hruns ▸ hi.lease, fun t ht => ?_⟩
    obtain ⟨hst, hr⟩ := hi.given t (hruns ▸ ht)
    obtain ⟨hst', hr'⟩ := returned_kept hi.gate he hg hst
    exact ⟨hst'.trans hst, hr'.trans hr⟩
  | run t e =>
    obtain ⟨hst, hruns, hg⟩ := run_cases hs
    refine ⟨hgate, fun u => ?_, fun u hu => ?_⟩
    · rw [hruns, update_apply]
      split
      · exact (hi.lease t).effect e
      · exact hi.lease u
    · obtain ⟨hstage, hrel⟩ := release_call h.gate t u
      by_cases hut : u = t
      · subst hut
        rw [hg, if_pos hu, hstage, hrel]
        exact ⟨hst, by simp⟩
      · rw [hruns, update_of_ne hut] at hu
        obtain ⟨hst', hr⟩ := hi.given u hu
        rw [hg]
        split
        · rw [hstage, hrel, hr]
          exact ⟨hst', rfl⟩
        · exact ⟨hst', hr⟩

/-- **No slot is lost**, in whatever order the gate and its runs take their turns. -/
theorem slots_kept {limit : ℤ} {d : D} (hr : Reach (step feed) Free (init limit d) h) :
    h.gate.active = h.gate.held.card ∧ (∀ t ∈ h.gate.held, h.ended t = false) ∧
      (∀ t, (h.runs t).lease.freed ≤ 1) ∧
      ((∀ t < h.gate.next, h.ended t = true) → h.gate.active = 0 ∧ h.gate.waiting = []) ∧
      ∀ m h', h.step feed m = some h' → ∀ t, (h.gate.calls t).released = false →
        (h'.gate.calls t).released = true → h'.gate.Settled := by
  have hi : Inv h := hr.invariant (P := Inv)
    ⟨inv_init limit, fun _ => ⟨rfl, nofun, nofun⟩, nofun⟩ fun _ _ _ ha _ hs => ha.step hs
  refine ⟨hi.gate.count, fun t ht => ?_, fun t => ?_, fun hall => ⟨?_, ?_⟩, fun m h' hs t ht ht' => ?_⟩
  · by_contra hne
    exact (hi.free (by simpa using hne)).1 ht
  · rw [(hi.lease t).freed]
    split <;> omega
  · rw [hi.gate.count, Finset.card_eq_zero.mpr, Nat.cast_zero]
    refine Finset.eq_empty_of_forall_notMem fun t ht => ?_
    exact (hi.free (hall t (Finset.mem_range.mp (Finset.mem_filter.mp ht).1))).1 ht
  · refine List.eq_nil_iff_forall_not_mem.mpr fun t ht => ?_
    have hp := live_iff.mp ((hi.gate.queued t).mp ht)
    exact (hi.free (hall t (hi.gate.lt_next_of_future (by simp [hp])))).2 ht
  · obtain hg | ⟨e, hg⟩ := gate_turn hs
    · rw [hg, ht] at ht'
      cases ht'
    · exact Frees.settled (.inr ⟨t, ht, ht'⟩) hi.gate hg

/-- One slot: the run of call 0 fails, and call 1 gets its lease. -/
def passing : List (Turn ℕ) :=
  [.gate (.acquire none), .gate (.acquire none), .run 0 (.dispatched .raised), .run 0 .proceed]

theorem slots_kept_passing : ∃ h : Hall Unit ℕ,
    Reach (step feedOne) Free (init 1 ()) h ∧ h.ended 0 = true ∧ h.gate.granted = [0, 1] ∧
      h.gate.active = h.gate.held.card := by
  have hrun : (replay (step feedOne) Free (init 1 ()) passing).any (fun h =>
      h.ended 0 && decide (h.gate.granted = [0, 1])) = true := by decide
  obtain ⟨h, hr, hh⟩ := reach_any hrun
  rw [Bool.and_eq_true, decide_eq_true_eq] at hh
  exact ⟨h, hr, hh.1, hh.2, (slots_kept hr).1⟩

end Hall

end SparkDeck.PromptGate
