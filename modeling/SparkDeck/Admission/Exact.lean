import SparkDeck.Admission.Slots

/-!
# Inference admission is exact

A state entry is a FIFO counting gate: `Entry.gate` reads it off as one of `PromptGate`, whose
accounting carries over operation by operation (`gate_drain`, `gate_retire`, `gate_enqueue`,
`gate_leave`); only the failing of a target has no counterpart there. On top of the gate an entry
keeps its leases and limits (`EntryInv`), and the store keeps the entries in use apart from those
that are done with (`Inv`): an entry that is not stored is idle, so a lease of it has been released.

* `admission_exact`: the accounting over every run.
-/

namespace SparkDeck.Admission

open PromptGate (Ticket EventId Grant Gate)
open Transition Function

variable {T : Type*}

/-! ## An entry as a gate -/

/-- Where a call is, as a call of the gate. -/
def Stage.gate (cancel : Option EventId) : Stage → PromptGate.Stage
  | .waiting => if cancel.isSome then .racing else .shielded
  | .returned => .returned
  | .raised => .raised

/-- A call as a call of the gate; one that was failed has left. -/
def Call.gate (c : Call) : PromptGate.Call :=
  match c.future with
  | .pending => ⟨c.cancel, .pending, c.released, c.stage.gate c.cancel⟩
  | .granted => ⟨c.cancel, .granted, c.released, c.stage.gate c.cancel⟩
  | .failed | .cancelled => ⟨c.cancel, .cancelled, c.released, .raised⟩

/-- An entry as a gate with the limit in force. -/
def Entry.gate (e : Entry T) : Gate where
  active := e.running
  waiting := e.waiters
  limit := e.cap
  isSet _ := false
  calls t := (e.calls t).gate
  next := e.next
  grants := e.grants

/-- What holds of an entry also in the middle of an operation. -/
structure Core (e : Entry T) : Prop where
  gate : PromptGate.Inv e.gate
  limit : 1 ≤ e.limit
  effective : ∀ n, e.effective = some n → 1 ≤ n
  leased : ∀ t, t ∈ e.leases ↔ (e.calls t).holds
  nodup : e.leases.Nodup
  below : ∀ x ∈ e.grants, x.active < x.limit

structure EntryInv (e : Entry T) : Prop extends Core e where
  /-- No live waiter below the limit. -/
  settled : e.running < e.cap → e.waiters = []

variable {e : Entry T} {t u : Ticket}

theorem pending_gate {c : Call} : c.gate.future = .pending ↔ c.future = .pending := by
  cases hf : c.future <;> simp [Call.gate, hf]

theorem granted_gate {c : Call} : c.gate.future = .granted ↔ c.future = .granted := by
  cases hf : c.future <;> simp [Call.gate, hf]

theorem live_gate : e.gate.live t = e.live t := by
  rw [Bool.eq_iff_iff]
  simp only [Gate.live, Entry.live, beq_iff_eq]
  exact pending_gate

@[simp] theorem released_gate {c : Call} : c.gate.released = c.released := by
  cases hf : c.future <;> simp [Call.gate, hf]

theorem holds_gate {c : Call} : c.gate.holds = c.holds := by
  rw [Bool.eq_iff_iff]
  simp only [PromptGate.Call.holds, Call.holds, Bool.and_eq_true, beq_iff_eq, granted_gate,
    released_gate]

theorem live_iff : e.live t ↔ (e.calls t).future = .pending := by
  simp [Entry.live]

theorem holds_iff {c : Call} : c.holds = true ↔ c.future = .granted ∧ c.released = false := by
  simp [Call.holds]

theorem Core.queued (h : Core e) : t ∈ e.waiters ↔ e.live t := by
  rw [← live_gate]
  exact h.gate.queued t

theorem Core.cap_pos (h : Core e) : 1 ≤ e.cap := by
  unfold Entry.cap
  cases he : e.effective with
  | none => exact h.limit
  | some n => exact h.effective n he

theorem gate_setCall (e : Entry T) (t : Ticket) (c : Call) :
    (e.setCall t c).gate = e.gate.setCall t c.gate := by
  have hcalls : (fun u => ((e.setCall t c).calls u).gate) =
      update (fun u => (e.calls u).gate) t c.gate := by
    funext u
    by_cases hu : u = t
    · subst hu
      simp [Entry.setCall]
    · simp [Entry.setCall, update_of_ne hu]
  simp only [Entry.gate, Gate.setCall, ← hcalls]
  rfl

/-! ## The operations of an entry -/

/-- The pass a drain makes. -/
def Entry.pass (e : Entry T) : Fifo.Pass Ticket := Fifo.drain e.live e.cap e.running e.waiters

theorem Core.pass_gate (h : Core e) : e.gate.pass = e.pass := by
  have hlive : e.gate.live = e.live := funext fun t => live_gate
  have hcap : e.gate.cap = e.cap := max_eq_right h.cap_pos
  simp only [Gate.pass, Entry.pass, hlive, hcap]
  rfl

theorem admitted_pending (ht : t ∈ e.pass.admitted) :
    t ∈ e.waiters ∧ (e.calls t).future = .pending :=
  ⟨(Fifo.mem_admitted ht).1, live_iff.mp (Fifo.mem_admitted ht).2⟩

theorem drain_calls_pos (ht : t ∈ e.pass.admitted) :
    e.drain.calls t = { e.calls t with future := .granted } := if_pos ht

theorem drain_calls_neg (ht : t ∉ e.pass.admitted) : e.drain.calls t = e.calls t := if_neg ht

/-- A drain is a refresh of the gate. -/
theorem Core.gate_drain (h : Core e) : e.drain.gate = e.gate.refresh := by
  have hcalls : (fun t => (e.drain.calls t).gate) = e.gate.refresh.calls := by
    funext t
    by_cases ht : t ∈ e.pass.admitted
    · have hp := (admitted_pending ht).2
      rw [drain_calls_pos ht, PromptGate.refresh_calls_pos _ (by rw [h.pass_gate]; exact ht)]
      simp [Entry.gate, Call.gate, hp]
    · rw [drain_calls_neg ht, PromptGate.refresh_calls_neg _ (by rw [h.pass_gate]; exact ht)]
      rfl
  have hpass := h.pass_gate
  have hgate : e.gate.refresh = { e.gate with
      active := e.pass.active
      waiting := e.pass.waiting
      calls := e.gate.refresh.calls
      grants := e.grants ++ e.pass.granted.map fun x => ⟨x.1, x.2, e.cap⟩ } := by
    rw [← hpass]
    rfl
  rw [hgate, ← hcalls]
  rfl

theorem Core.drain (h : Core e) : EntryInv e.drain where
  gate := by
    rw [h.gate_drain]
    exact h.gate.refresh
  limit := h.limit
  effective := h.effective
  settled hlt := Fifo.drain_full _ _ hlt
  leased t := by
    have hl : e.drain.leases = e.leases ++ e.pass.admitted := rfl
    rw [hl, List.mem_append, h.leased]
    by_cases ht : t ∈ e.pass.admitted
    · have hp := (admitted_pending ht).2
      have hr : (e.calls t).released = false := by
        by_contra hr
        have hg := h.gate.leased t (released_gate.trans (by simpa using hr))
        rw [Entry.gate, granted_gate, hp] at hg
        cases hg
      rw [drain_calls_pos ht]
      simp [Call.holds, ht, hr]
    · rw [drain_calls_neg ht]
      simp [ht]
  nodup := by
    have hsorted : e.pass.admitted.Pairwise (· < ·) :=
      (Fifo.admitted_pairwise h.gate.sorted).1
    refine List.nodup_append'.mpr ⟨h.nodup, hsorted.imp fun hlt => Nat.ne_of_lt hlt, ?_⟩
    intro t ht hta
    have hp := (admitted_pending hta).2
    rw [(holds_iff.mp ((h.leased t).mp ht)).1] at hp
    cases hp
  below x hx := by
    rcases List.mem_append.mp hx with hx | hx
    · exact h.below x hx
    · obtain ⟨y, hy, rfl⟩ := List.mem_map.mp hx
      exact Fifo.drain_below _ _ y hy

/-- The limits change, and nothing else. -/
theorem Core.setLimits (h : Core e) {limit : ℤ} {effective : Option ℤ} (hl : 1 ≤ limit)
    (he : ∀ n, effective = some n → 1 ≤ n) :
    Core { e with limit := limit, effective := effective } :=
  { h with
    gate := ⟨h.gate.count, h.gate.sorted, h.gate.queued, h.gate.fresh, h.gate.leased, h.gate.raised,
      h.gate.returned, h.gate.dead, h.gate.below, h.gate.logged, h.gate.arrival, h.gate.ahead⟩
    limit := hl
    effective := he }

/-- Call `t` goes on to stage `stage`. -/
def Entry.setStage (e : Entry T) (t : Ticket) (stage : Stage) : Entry T :=
  e.setCall t { e.calls t with stage := stage }

theorem setStage_self (e : Entry T) (t : Ticket) : e.setStage t (e.calls t).stage = e := by
  simp [Entry.setStage, Entry.setCall]

/-- A call moves to a stage that its future allows. -/
theorem Core.setStage (h : Core e) (ht : t < e.next) {stage : Stage}
    (hf : (e.calls t).future = .granted)
    (hx : stage = .raised → (e.calls t).holds = false) :
    Core (e.setStage t stage) :=
  { h with
    gate := by
      have hgate : e.gate.calls t = (e.calls t).gate := rfl
      have hc : Call.gate { e.calls t with stage := stage } =
          { e.gate.calls t with stage := stage.gate (e.calls t).cancel } := by
        rw [hgate]
        simp [Call.gate, hf]
      rw [Entry.setStage, gate_setCall, hc]
      refine h.gate.setStage ht _ ?_ (fun hr => ⟨?_, ?_⟩) (fun _ => ?_)
      · rw [hgate, granted_gate.mpr hf]
        simp
      · rw [hgate, holds_gate]
        refine hx ?_
        cases stage with
        | raised => rfl
        | returned => exact absurd hr (by simp [Stage.gate])
        | waiting =>
          simp only [Stage.gate] at hr
          split at hr <;> cases hr
      · rw [hgate, granted_gate.mpr hf]
        simp
      · rw [hgate]
        exact granted_gate.mpr hf
    leased u := by
      rw [show (e.setStage t stage).leases = e.leases from rfl, h.leased]
      by_cases hu : u = t
      · subst hu
        simp [Entry.setStage, Entry.setCall, Call.holds]
      · simp [Entry.setStage, Entry.setCall, update_of_ne hu] }

theorem Core.running_pos (h : Core e) (ht : (e.calls t).holds) : 1 ≤ e.running := by
  have hmem : t ∈ e.gate.held := h.gate.mem_held.mpr (holds_gate.trans ht)
  have hcard : 0 < e.gate.held.card := Finset.card_pos.mpr ⟨t, hmem⟩
  have hcount : e.running = e.gate.held.card := h.gate.count
  omega

/-- A lease that is released for the first time, before the drain. -/
theorem Core.retire (h : Core e) (ht : (e.calls t).holds) (stage : Stage) :
    Core { (e.setStage t stage).retire t with running := max 0 (e.running - 1) } where
  gate := by
    obtain ⟨hf, hr⟩ := holds_iff.mp ht
    have hgate : e.gate.calls t = (e.calls t).gate := rfl
    have hc : Call.gate { e.calls t with stage := stage, released := true } =
        { e.gate.calls t with
          stage := stage.gate (e.calls t).cancel, released := true } := by
      rw [hgate]
      simp [Call.gate, hf]
    have hpos := h.running_pos ht
    have hx : ({ (e.setStage t stage).retire t with running := max 0 (e.running - 1) } :
        Entry T).gate = e.gate.retire t (stage.gate (e.calls t).cancel) := by
      rw [Gate.retire, ← hc, ← gate_setCall]
      simp only [Entry.gate, Entry.retire, Entry.setStage, Entry.setCall, update_self,
        update_idem, max_eq_right (by omega : 0 ≤ e.running - 1)]
      rfl
    rw [hx]
    refine h.gate.retire ?_ ?_ _
    · rw [hgate]
      exact granted_gate.mpr hf
    · rw [hgate, released_gate]
      exact hr
  limit := h.limit
  effective := h.effective
  leased u := by
    show u ∈ e.leases.erase t ↔ _
    rw [h.nodup.mem_erase_iff, h.leased]
    by_cases hu : u = t
    · subst hu
      simp [Entry.retire, Entry.setStage, Entry.setCall, Call.holds]
    · simp [Entry.retire, Entry.setStage, Entry.setCall, hu]
  nodup := h.nodup.erase t
  below := h.below

theorem Core.free_retire (h : Core e) (ht : (e.calls t).holds) (stage : Stage) :
    EntryInv ((e.setStage t stage).retire t).free :=
  (h.retire ht stage).drain

theorem Core.enqueue (h : Core e) (cancel : Option EventId) : Core (e.enqueue cancel) :=
  { h with
    gate := by
      have hx : (e.enqueue cancel).gate = e.gate.enqueue cancel := by
        show ({ e.setCall e.next ⟨cancel, .pending, false, .waiting⟩ with
          next := e.next + 1, waiters := e.waiters ++ [e.next] } : Entry T).gate = _
        have hs := gate_setCall e e.next ⟨cancel, .pending, false, .waiting⟩
        simp only [Gate.enqueue, Entry.gate, Gate.setCall, Entry.setCall] at hs ⊢
        rw [Gate.mk.injEq] at hs
        rw [hs.2.2.2.2.1]
        rfl
      rw [hx]
      exact h.gate.enqueue cancel
    leased u := by
      show u ∈ e.leases ↔ _
      rw [h.leased]
      by_cases hu : u = e.next
      · subst hu
        have hfresh : (e.calls e.next).gate = .unused := h.gate.fresh e.next (Nat.le_refl _)
        have hno : (e.calls e.next).holds = false := by
          rw [← holds_gate, hfresh]
          rfl
        rw [hno]
        simp [Entry.enqueue, Entry.setCall, Call.holds]
      · simp [Entry.enqueue, Entry.setCall, update_of_ne hu] }

/-- A waiter that gives up leaves the queue; one whose target was failed has left it already. -/
theorem EntryInv.leave (h : EntryInv e) (hf : (e.calls t).future ≠ .granted) :
    EntryInv (e.leave t) where
  gate := by
    have hgate : e.gate.calls t = (e.calls t).gate := rfl
    by_cases hp : (e.calls t).future = .pending
    · have hc : Call.gate { e.calls t with future := .cancelled, stage := .raised } =
          { e.gate.calls t with future := .cancelled, stage := .raised } := by
        rw [hgate]
        simp [Call.gate, hp]
      have hx : (e.leave t).gate = e.gate.unwind t := by
        rw [PromptGate.unwind_pending (by rw [hgate, pending_gate.mpr hp]; simp), ← hc,
          ← gate_setCall]
        simp only [Entry.leave, hp, if_true]
        rfl
      rw [hx]
      exact h.gate.leave (by rw [hgate]; exact pending_gate.mpr hp)
    · have hnot : t ∉ e.waiters := fun hw => hp (live_iff.mp (h.queued.mp hw))
      have hc : Call.gate { e.calls t with stage := .raised } = e.gate.calls t := by
        rw [hgate]
        cases hfut : (e.calls t).future with
        | pending => exact absurd hfut hp
        | granted => exact absurd hfut hf
        | failed | cancelled => simp [Call.gate, hfut]
      have hx : (e.leave t).gate = e.gate := by
        have hset := gate_setCall e t { e.calls t with stage := .raised }
        rw [hc, Gate.setCall, update_eq_self] at hset
        simp only [Entry.leave, if_neg hp, List.erase_of_not_mem hnot]
        exact hset
      rw [hx]
      exact h.gate
  limit := h.limit
  effective := h.effective
  leased u := by
    show u ∈ e.leases ↔ _
    rw [h.leased]
    by_cases hu : u = t
    · subst hu
      have hno : (e.calls u).holds = false := by
        cases hh : (e.calls u).holds with
        | false => rfl
        | true => exact absurd (holds_iff.mp hh).1 hf
      rw [hno]
      by_cases hp : (e.calls u).future = .pending <;>
        simp [Entry.leave, Entry.setCall, Call.holds, hp, hf]
    · simp [Entry.leave, Entry.setCall, update_of_ne hu]
  nodup := h.nodup
  below := h.below
  settled hlt := by
    have hw := h.settled hlt
    show e.waiters.erase t = []
    rw [hw]
    rfl

/-- A call of a failed entry: not live, not holding, and otherwise as it was. -/
theorem Core.fail_calls (h : Core e) (t : Ticket) :
    (e.fail.calls t).holds = false ∧ e.fail.live t = false ∧
      ((e.fail.calls t).gate.future = .granted ↔ (e.calls t).future = .granted) ∧
      ((e.fail.calls t).gate.released → (e.calls t).future = .granted) ∧
      ((e.fail.calls t).gate.future = .cancelled → (e.fail.calls t).gate.stage = .raised) ∧
      ((e.fail.calls t).gate.stage = .returned → (e.calls t).future = .granted) := by
  have hrel := h.gate.leased t
  have hret := h.gate.returned t
  have hdead := h.gate.dead t
  have hg : e.gate.calls t = (e.calls t).gate := rfl
  rw [hg, granted_gate, released_gate] at hrel
  rw [hg, granted_gate] at hret
  rw [hg] at hdead
  by_cases hp : (e.calls t).future = .pending
  · have hw : t ∈ e.waiters := h.queued.mpr (live_iff.mpr hp)
    have hc : e.fail.calls t = { e.calls t with future := .failed } := if_pos ⟨hw, hp⟩
    have hnr : (e.calls t).released = false := by
      by_contra hr
      exact absurd (hrel (by simpa using hr)) (by rw [hp]; simp)
    simp [Entry.live, hc, Call.holds, Call.gate, hp, hnr]
  · by_cases hl : t ∈ e.leases
    · obtain ⟨hf, hr⟩ := holds_iff.mp ((h.leased t).mp hl)
      have hc : e.fail.calls t = { e.calls t with released := true } := by
        simp only [Entry.fail, hp, and_false, if_false, hl, if_true]
      simp [Entry.live, hc, Call.holds, Call.gate, hf]
    · have hc : e.fail.calls t = e.calls t := by
        simp only [Entry.fail, hp, and_false, if_false, hl]
      have hno : (e.calls t).holds = false := by
        cases hh : (e.calls t).holds with
        | false => rfl
        | true => exact absurd ((h.leased t).mpr hh) hl
      rw [Entry.live, hc]
      refine ⟨hno, by simpa using hp, granted_gate, fun hr => hrel ?_, hdead, hret⟩
      rwa [released_gate] at hr

theorem Core.fail (h : Core e) : EntryInv e.fail where
  gate := {
    count := by
      have hheld : e.fail.gate.held = ∅ := by
        refine Finset.filter_eq_empty_iff.mpr fun t _ => ?_
        show ¬ (e.fail.calls t).gate.holds = true
        rw [holds_gate, (h.fail_calls t).1]
        simp
      rw [hheld]
      rfl
    sorted := List.Pairwise.nil
    queued := fun t => by
      rw [live_gate, (h.fail_calls t).2.1]
      simp [Entry.gate, Entry.fail]
    fresh := fun t ht => by
      have hfresh : (e.calls t).gate = .unused := h.gate.fresh t ht
      have hp : (e.calls t).future ≠ .pending := by
        intro hp
        rw [← pending_gate, hfresh] at hp
        exact absurd hp (by simp [PromptGate.Call.unused])
      have hl : t ∉ e.leases := by
        rw [h.leased, ← holds_gate, hfresh]
        simp [PromptGate.Call.unused, PromptGate.Call.holds]
      have hc : e.fail.calls t = e.calls t := by
        simp only [Entry.fail, hp, and_false, if_false, hl]
      show (e.fail.calls t).gate = _
      rw [hc, hfresh]
    leased := fun t ht => (h.fail_calls t).2.2.1.mpr ((h.fail_calls t).2.2.2.1 ht)
    raised := fun t _ => ⟨holds_gate.trans (h.fail_calls t).1, live_gate.trans (h.fail_calls t).2.1⟩
    returned := fun t ht => (h.fail_calls t).2.2.1.mpr ((h.fail_calls t).2.2.2.2.2 ht)
    dead := fun t ht => (h.fail_calls t).2.2.2.2.1 ht
    below := h.gate.below
    logged := fun t => by
      rw [show e.fail.gate.granted = e.gate.granted from rfl, h.gate.logged]
      exact granted_gate.trans (h.fail_calls t).2.2.1.symm
    arrival := h.gate.arrival
    ahead := fun s _ t ht => absurd ht List.not_mem_nil }
  limit := h.limit
  effective := h.effective
  leased t := by
    rw [(h.fail_calls t).1]
    simp [Entry.fail]
  nodup := List.nodup_nil
  below := h.below
  settled _ := rfl

theorem entryInv_new (target : T) {limit : ℤ} (hl : 1 ≤ limit) :
    EntryInv (Entry.new target limit) where
  gate := {
    count := rfl
    sorted := List.Pairwise.nil
    queued := fun t => by simp [Entry.gate, Entry.new, Gate.live, Call.gate, Call.unused]
    fresh := fun _ _ => rfl
    leased := fun t ht => by simp [Entry.gate, Entry.new, Call.gate, Call.unused] at ht
    raised := fun t _ => by
      simp [Entry.gate, Entry.new, Gate.live, Call.gate, Call.unused, PromptGate.Call.holds]
    returned := fun t ht => by simp [Entry.gate, Entry.new, Call.gate, Call.unused] at ht
    dead := fun _ _ => rfl
    below := fun x hx => absurd hx List.not_mem_nil
    logged := fun t => by
      simp [Entry.gate, Entry.new, Gate.granted, Call.gate, Call.unused]
    arrival := List.Pairwise.nil
    ahead := fun s hs => absurd hs List.not_mem_nil }
  limit := hl
  effective n hn := absurd hn (by simp [Entry.new])
  leased t := by simp [Entry.new, Call.holds, Call.unused]
  nodup := List.nodup_nil
  below x hx := absurd hx List.not_mem_nil
  settled _ := rfl

/-! ## The nudger -/

theorem EntryInv.clamp (h : EntryInv e) : EntryInv e.clamp := by
  have hcap : e.clamp.cap ≤ e.cap := by
    simp only [Entry.cap, Entry.clamp]
    cases he : e.effective with
    | none => simp
    | some n =>
      have hn := h.effective n he
      simp only [Option.map_some, Option.getD_some]
      omega
  have hcore : Core e.clamp := by
    refine h.toCore.setLimits h.limit fun n hn => ?_
    obtain ⟨k, -, rfl⟩ := Option.map_eq_some_iff.mp hn
    exact le_max_left _ _
  exact { hcore with settled := fun hlt => h.settled (lt_of_lt_of_le hlt hcap) }

/-- The nudger lowers the limit, or raises it and drains. -/
theorem EntryInv.nudge (h : EntryInv e) (v : Entry.Verdict) : EntryInv (e.nudge v) := by
  have hc := h.clamp
  have hnone : EntryInv { e.clamp with effective := none }.drain :=
    (hc.toCore.setLimits hc.limit (fun n hn => absurd hn (by simp))).drain
  unfold Entry.nudge
  cases v with
  | watching => exact hc
  | stalled =>
    have hcore : Core { e.clamp with effective := some 1 } :=
      hc.toCore.setLimits hc.limit fun n hn => by
        cases hn
        exact le_refl _
    refine { hcore with settled := fun hlt => hc.settled (lt_of_lt_of_le hlt ?_) }
    exact hc.cap_pos
  | steady due =>
    cases he : e.clamp.effective with
    | none => simpa only [he] using hc
    | some n =>
      have hn := hc.effective n he
      simp only [he]
      split
      · exact hnone
      · split
        · split
          · exact hnone
          · refine (hc.toCore.setLimits hc.limit fun k hk => ?_).drain
            cases hk
            exact le_min (le_max_left _ _) (by omega)
        · exact hc

theorem nudge_target (e : Entry T) (v : Entry.Verdict) : (e.nudge v).target = e.target := by
  cases v with
  | watching => rfl
  | stalled => rfl
  | steady due =>
    simp only [Entry.nudge]
    cases e.clamp.effective with
    | none => rfl
    | some n =>
      simp only
      split_ifs <;> rfl

/-- An entry is idle when no call of it is live or has a lease. -/
theorem Core.idle_iff (h : Core e) :
    e.Idle ↔ ∀ t, e.live t = false ∧ (e.calls t).holds = false := by
  constructor
  · rintro ⟨hrun, hwait⟩ t
    constructor
    · cases hl : e.live t with
      | false => rfl
      | true =>
        have hw := h.queued.mpr hl
        rw [hwait] at hw
        exact absurd hw List.not_mem_nil
    · cases hh : (e.calls t).holds with
      | false => rfl
      | true =>
        have hpos := h.running_pos hh
        omega
  · intro hno
    constructor
    · have hheld : e.gate.held = ∅ := by
        refine Finset.filter_eq_empty_iff.mpr fun t _ => ?_
        show ¬ (e.calls t).gate.holds = true
        rw [holds_gate, (hno t).2]
        simp
      have hcount : e.running = e.gate.held.card := h.gate.count
      rw [hcount, hheld]
      rfl
    · refine List.eq_nil_iff_forall_not_mem.mpr fun t hw => ?_
      rw [h.queued, (hno t).1] at hw
      cases hw

/-- A drain does not make an entry idle: who was waiting is waiting or has a lease. -/
theorem Core.drain_busy (h : Core e) (hb : ¬ e.Idle) : ¬ e.drain.Idle := by
  rw [h.idle_iff] at hb
  rw [h.drain.idle_iff]
  intro hno
  refine hb fun t => ?_
  obtain ⟨hl, hh⟩ := hno t
  by_cases ht : t ∈ e.pass.admitted
  · have hp := (admitted_pending ht).2
    rw [drain_calls_pos ht] at hh
    have hr : (e.calls t).released = false := by
      by_contra hr
      have hg := h.gate.leased t (released_gate.trans (by simpa using hr))
      rw [Entry.gate, granted_gate, hp] at hg
      cases hg
    simp [Call.holds, hr] at hh
  · rw [Entry.live, drain_calls_neg ht] at hl
    rw [drain_calls_neg ht] at hh
    exact ⟨hl, hh⟩

theorem EntryInv.nudge_busy (h : EntryInv e) (hb : ¬ e.Idle) (v : Entry.Verdict) :
    ¬ (e.nudge v).Idle := by
  have hc := h.clamp
  have hbc : ¬ e.clamp.Idle := hb
  have hnone : ¬ ({ e.clamp with effective := none } : Entry T).drain.Idle :=
    (hc.toCore.setLimits hc.limit (fun n hn => absurd hn (by simp))).drain_busy hb
  unfold Entry.nudge
  cases v with
  | watching => exact hb
  | stalled => exact hb
  | steady due =>
    cases he : e.clamp.effective with
    | none => simpa only [he] using hbc
    | some n =>
      have hn := hc.effective n he
      simp only [he]
      split
      · exact hnone
      · split
        · split
          · exact hnone
          · refine (hc.toCore.setLimits hc.limit fun k hk => ?_).drain_busy hb
            cases hk
            exact le_min (le_max_left _ _) (by omega)
        · exact hb

/-- A call that joins the queue is in it or has a lease when the drain is done. -/
theorem Core.enqueue_busy (h : Core e) (cancel : Option EventId) : ¬ (e.enqueue cancel).drain.Idle := by
  refine (h.enqueue cancel).drain_busy fun hidle => ?_
  have hlive : (e.enqueue cancel).live e.next := by
    simp [Entry.live, Entry.enqueue, Entry.setCall]
  have hno := ((h.enqueue cancel).idle_iff.mp hidle e.next).1
  rw [hlive] at hno
  cases hno

/-- A waiter only leaves the queue of an entry whose slots are taken. -/
theorem EntryInv.leave_busy (h : EntryInv e) (hb : ¬ e.Idle) : ¬ (e.leave t).Idle := by
  rintro ⟨hrun, hwait⟩
  have hrun : e.running = 0 := hrun
  have hwait : e.waiters.erase t = [] := hwait
  refine hb ⟨hrun, h.settled ?_⟩
  have hpos := h.cap_pos
  omega

/-! ## The store -/

section

variable {g : Store T} {i : ℕ} {e' : Entry T}

@[simp] theorem put_self : (g.put i e').entries i = e' := update_self ..

theorem put_of_ne {j : ℕ} (hj : j ≠ i) : (g.put i e').entries j = g.entries j :=
  update_of_ne hj ..

theorem put_put (a b : Entry T) : (g.put i a).put i b = g.put i b := by
  simp [Store.put]

end

structure Inv (g : Store T) : Prop where
  entry : ∀ i, EntryInv (g.entries i)
  stored : ∀ target i, g.current target = some i →
    i < g.next ∧ (g.entries i).target = target ∧ ¬ (g.entries i).Idle
  gone : ∀ i, ¬ g.Stored i → (g.entries i).Idle

variable {g : Store T} {i : ℕ} {e' : Entry T}

/-- A lease of an entry that is not stored has been released. -/
theorem Inv.stored_of_holds (h : Inv g) {t : Ticket} (ht : ((g.entries i).calls t).holds) :
    g.Stored i := by
  by_contra hs
  have hidle := h.gone i hs
  rw [(h.entry i).idle_iff] at hidle
  rw [(hidle t).2] at ht
  cases ht

theorem stored_put (ht : e'.target = (g.entries i).target) (j : ℕ) :
    (g.put i e').Stored j ↔ g.Stored j := by
  by_cases hj : j = i
  · subst hj
    simp only [Store.Stored, put_self, ht]
    rfl
  · simp only [Store.Stored, put_of_ne hj]
    rfl

/-- An entry changes and stays where it is. -/
theorem Inv.put (h : Inv g) (he : EntryInv e') (ht : e'.target = (g.entries i).target)
    (hbusy : g.Stored i → ¬ e'.Idle) (hidle : ¬ g.Stored i → e'.Idle) : Inv (g.put i e') where
  entry j := by
    by_cases hj : j = i
    · rw [hj, put_self]
      exact he
    · rw [put_of_ne hj]
      exact h.entry j
  stored target j hc := by
    obtain ⟨hlt, htarget, hb⟩ := h.stored target j hc
    by_cases hj : j = i
    · subst hj
      rw [put_self]
      refine ⟨hlt, ht.trans htarget, hbusy ?_⟩
      rw [Store.Stored, htarget]
      exact hc
    · rw [put_of_ne hj]
      exact ⟨hlt, htarget, hb⟩
  gone j hj := by
    rw [stored_put ht] at hj
    by_cases hji : j = i
    · subst hji
      rw [put_self]
      exact hidle hj
    · rw [put_of_ne hji]
      exact h.gone j hj

theorem Inv.nudge (h : Inv g) (target : T) (v : Entry.Verdict) : Inv (g.nudge target v) := by
  unfold Store.nudge
  cases hc : g.current target with
  | none => exact h
  | some i =>
    obtain ⟨-, htarget, hb⟩ := h.stored target i hc
    have hst : g.Stored i := by
      rw [Store.Stored, htarget]
      exact hc
    exact h.put ((h.entry i).nudge v) (nudge_target _ v) (fun _ => (h.entry i).nudge_busy hb v)
      fun hn => absurd hst hn

variable [DecidableEq T]

/-- A stored entry becomes idle and leaves the store. -/
theorem Inv.drop (h : Inv g) (hs : g.Stored i) (he : EntryInv e')
    (ht : e'.target = (g.entries i).target) (hidle : e'.Idle) : Inv ((g.put i e').drop i) where
  entry j := by
    show EntryInv ((g.put i e').entries j)
    by_cases hj : j = i
    · rw [hj, put_self]
      exact he
    · rw [put_of_ne hj]
      exact h.entry j
  stored target j hc := by
    simp only [Store.drop, put_self] at hc ⊢
    by_cases htarget : target = e'.target
    · rw [htarget, update_self] at hc
      cases hc
    · rw [update_of_ne htarget] at hc
      obtain ⟨hlt, hjt, hb⟩ := h.stored target j hc
      have hj : j ≠ i := by
        rintro rfl
        exact htarget (hjt.symm.trans ht.symm)
      rw [put_of_ne hj]
      exact ⟨hlt, hjt, hb⟩
  gone j hj := by
    show ((g.put i e').entries j).Idle
    by_cases hji : j = i
    · rw [hji, put_self]
      exact hidle
    · rw [put_of_ne hji]
      refine h.gone j fun hst => hj ?_
      -- another target's entry stays stored
      have htarget : (g.entries j).target ≠ e'.target := by
        intro hte
        rw [Store.Stored, hte, ht] at hst
        exact hji (Option.some.inj (hst.symm.trans hs))
      simp only [Store.Stored, Store.drop, put_of_ne hji, put_self]
      rw [update_of_ne htarget]
      exact hst

theorem Inv.cleanup (h : Inv g) (hs : g.Stored i) (he : EntryInv e')
    (ht : e'.target = (g.entries i).target) : Inv ((g.put i e').cleanup i) := by
  unfold Store.cleanup
  rw [put_self]
  split
  · next hidle => exact h.drop hs he ht hidle
  · next hbusy => exact h.put he ht (fun _ => hbusy) fun hn => absurd hs hn

theorem Inv.release (h : Inv g) {t : Ticket} (hf : ((g.entries i).calls t).future = .granted) :
    Inv (g.release i t) := by
  unfold Store.release
  split
  · exact h
  · next hr =>
    have ht : ((g.entries i).calls t).holds := holds_iff.mpr ⟨hf, by simpa using hr⟩
    have hs := h.stored_of_holds ht
    rw [if_pos hs]
    refine h.cleanup hs ?_ rfl
    have hfree := (h.entry i).free_retire ht ((g.entries i).calls t).stage
    rwa [setStage_self] at hfree

theorem Inv.unwind (h : Inv g) {t : Ticket} : Inv (g.unwind i t) := by
  unfold Store.unwind
  simp only
  split
  · next hf =>
    have hlt : t < (g.entries i).next := by
      have hgate := (h.entry i).gate.lt_next_of_future (t := t) (by
        show ((g.entries i).calls t).gate.future ≠ _
        rw [granted_gate.mpr hf]
        simp)
      exact hgate
    unfold Store.release
    rw [put_self]
    have hrel : (((g.entries i).setCall t
        { (g.entries i).calls t with stage := .raised }).calls t).released =
          ((g.entries i).calls t).released := by
      simp [Entry.setCall]
    rw [hrel]
    split
    · next hr =>
      -- released or failed already: the lease is given up as it is
      have hno : ((g.entries i).calls t).holds = false := by simp [Call.holds, hr]
      have hcore : Core ((g.entries i).setStage t .raised) :=
        (h.entry i).toCore.setStage hlt hf fun _ => hno
      exact h.put { hcore with settled := (h.entry i).settled } rfl
        (fun hst => (h.stored _ i hst).2.2) fun hn => h.gone i hn
    · next hr =>
      have ht : ((g.entries i).calls t).holds := holds_iff.mpr ⟨hf, by simpa using hr⟩
      have hst := h.stored_of_holds ht
      rw [if_pos ((stored_put (by rfl) i).mpr hst), put_put]
      exact h.cleanup hst ((h.entry i).free_retire ht .raised) rfl
  · next hf =>
    refine h.put ((h.entry i).leave hf) rfl (fun hst => ?_) fun hn => ?_
    · exact (h.entry i).leave_busy (h.stored _ i hst).2.2
    · obtain ⟨hrun, hwait⟩ := h.gone i hn
      refine ⟨hrun, ?_⟩
      show (g.entries i).waiters.erase t = []
      rw [hwait]
      rfl

theorem Inv.releaseTarget (h : Inv g) (target : T) : Inv (g.releaseTarget target) := by
  unfold Store.releaseTarget
  cases hc : g.current target with
  | none => exact h
  | some i =>
    obtain ⟨-, htarget, -⟩ := h.stored target i hc
    have hst : g.Stored i := by
      rw [Store.Stored, htarget]
      exact hc
    simp only
    cases hl : (g.entries i).leases with
    | cons t ts =>
      have hh := ((h.entry i).leased t).mp (by rw [hl]; exact List.mem_cons_self)
      exact h.release (holds_iff.mp hh).1
    | nil =>
      -- without a lease nothing runs, and the count stays 0
      have hrun : (g.entries i).running = 0 := by
        have hheld : (g.entries i).gate.held = ∅ := by
          refine Finset.filter_eq_empty_iff.mpr fun t _ => ?_
          show ¬ ((g.entries i).calls t).gate.holds = true
          rw [holds_gate, ← (h.entry i).leased, hl]
          exact List.not_mem_nil
        have hcount : (g.entries i).running = (g.entries i).gate.held.card := (h.entry i).gate.count
        rw [hcount, hheld]
        rfl
      have hfree : (g.entries i).free = (g.entries i).drain := by
        have hmax : max 0 ((g.entries i).running - 1) = (g.entries i).running := by omega
        simp only [Entry.free, hmax]
      simp only [hfree]
      exact h.cleanup hst (h.entry i).toCore.drain rfl

theorem Inv.fail (h : Inv g) (i : ℕ) : Inv (g.fail i) := by
  have hfail := (h.entry i).toCore.fail
  unfold Store.fail
  simp only
  split
  · next hst =>
    have hst' : g.Stored i := (stored_put (by rfl) i).mp hst
    exact h.drop hst' hfail rfl ⟨rfl, rfl⟩
  · next hst =>
    exact h.put hfail rfl (fun hn => absurd ((stored_put (by rfl) i).mpr hn) hst) fun _ => ⟨rfl, rfl⟩

/-- A target gets a new entry. -/
theorem Inv.create (h : Inv g) {target : T} (hc : g.current target = none) (he : EntryInv e')
    (ht : e'.target = target) (hb : ¬ e'.Idle) :
    Inv { g.put g.next e' with
      current := update g.current target (some g.next), next := g.next + 1 } where
  entry j := by
    by_cases hj : j = g.next
    · rw [hj, put_self]
      exact he
    · rw [put_of_ne hj]
      exact h.entry j
  stored k j hk := by
    show j < g.next + 1 ∧ ((g.put g.next e').entries j).target = k ∧
      ¬ ((g.put g.next e').entries j).Idle
    simp only at hk
    by_cases hkt : k = target
    · rw [hkt, update_self] at hk
      cases hk
      rw [put_self]
      exact ⟨Nat.lt_succ_self _, ht.trans hkt.symm, hb⟩
    · rw [update_of_ne hkt] at hk
      obtain ⟨hlt, htarget, hbusy⟩ := h.stored k j hk
      rw [put_of_ne (Nat.ne_of_lt hlt)]
      exact ⟨Nat.lt_succ_of_lt hlt, htarget, hbusy⟩
  gone j hj := by
    simp only [Store.Stored] at hj
    by_cases hjn : j = g.next
    · subst hjn
      rw [put_self, ht, update_self] at hj
      exact absurd rfl hj
    · rw [put_of_ne hjn] at hj ⊢
      refine h.gone j fun hst => hj ?_
      have hne : (g.entries j).target ≠ target := by
        intro hte
        rw [Store.Stored, hte, hc] at hst
        cases hst
      rw [update_of_ne hne]
      exact hst

theorem Inv.acquire (h : Inv g) (target : T) (raw : Option ℤ) (cancel : Option EventId) :
    Inv (g.acquire target raw cancel) := by
  unfold Store.acquire
  cases hraw : configuredLimit raw with
  | none => exact h
  | some limit =>
    have hl : 1 ≤ limit := by
      cases raw with
      | none => simp [configuredLimit] at hraw
      | some n =>
        simp only [configuredLimit] at hraw
        split at hraw
        · simp at hraw
        · cases hraw
          omega
    simp only
    split
    · exact h
    · unfold Store.setdefault
      cases hc : g.current target with
      | some i =>
        obtain ⟨-, htarget, -⟩ := h.stored target i hc
        have hst : g.Stored i := by
          rw [Store.Stored, htarget]
          exact hc
        have hcore : Core { g.entries i with limit := limit } :=
          (h.entry i).toCore.setLimits hl (h.entry i).effective
        exact h.put (hcore.enqueue cancel).drain rfl (fun _ => hcore.enqueue_busy cancel)
          fun hn => absurd hst hn
      | none =>
        have hcore : Core (Entry.new target limit) := (entryInv_new target hl).toCore
        have hnew := h.create hc (hcore.enqueue cancel).drain rfl (hcore.enqueue_busy cancel)
        simpa [Store.put, Entry.new] using hnew

theorem Inv.wake (h : Inv g) {t : Ticket} {seen : Bool} {g' : Store T}
    (hs : g.wake i t seen = some g') : Inv g' := by
  unfold Store.wake at hs
  simp only at hs
  split at hs
  · simp at hs
  · split at hs
    · split at hs
      · cases hs
        exact h.unwind
      · simp at hs
    · cases hf : ((g.entries i).calls t).future with
      | pending => simp [hf] at hs
      | granted =>
        simp only [hf] at hs
        cases hs
        have hlt : t < (g.entries i).next := by
          refine (h.entry i).gate.lt_next_of_future (t := t) ?_
          show ((g.entries i).calls t).gate.future ≠ _
          rw [granted_gate.mpr hf]
          simp
        have hcore : Core ((g.entries i).setStage t .returned) :=
          (h.entry i).toCore.setStage hlt hf nofun
        have he : EntryInv ((g.entries i).setStage t .returned) :=
          { hcore with settled := (h.entry i).settled }
        simp only [Entry.setStage, hf] at he
        exact h.put he rfl (fun hst => (h.stored _ i hst).2.2) fun hn => h.gone i hn
      | failed | cancelled =>
        simp only [hf] at hs
        cases hs
        exact h.unwind

/-- **Every step keeps the accounting.** -/
theorem Inv.step {g' : Store T} {label : Label T} (h : Inv g) (hs : step g label = some g') :
    Inv g' := by
  cases label with
  | acquire target raw cancel =>
    cases hs
    exact h.acquire target raw cancel
  | wake i t seen => exact h.wake hs
  | timeout i t | throw i t =>
    simp only [Admission.step] at hs
    split at hs
    · cases hs
      exact h.unwind
    · simp at hs
  | release i t =>
    simp only [Admission.step] at hs
    split at hs
    · next hf =>
      cases hs
      exact h.release hf
    · simp at hs
  | releaseTarget target =>
    cases hs
    exact h.releaseTarget target
  | fail i =>
    simp only [Admission.step] at hs
    split at hs
    · cases hs
      exact h.fail i
    · simp at hs
  | nudge target v =>
    cases hs
    exact h.nudge target v
  | setEvent event =>
    cases hs
    exact ⟨h.entry, h.stored, h.gone⟩

omit [DecidableEq T] in
theorem inv_init [Inhabited T] : Inv (Store.init : Store T) where
  entry _ := entryInv_new default (by omega)
  stored _ _ hc := absurd hc (by simp [Store.init])
  gone _ _ := ⟨rfl, rfl⟩

theorem reach_inv [Inhabited T] (h : Reach step Free Store.init g) : Inv g :=
  h.invariant inv_init fun _ _ _ ha _ hs => ha.step hs

/-! ## Every run -/

/-- The leases granted from an entry and not yet released or failed. -/
def Entry.held (e : Entry T) : Finset Ticket :=
  (Finset.range e.next).filter fun t => (e.calls t).holds

omit [DecidableEq T] in
theorem held_gate (e : Entry T) : e.gate.held = e.held := by
  ext t
  simp only [Gate.held, Entry.held, Finset.mem_filter, Finset.mem_range]
  exact and_congr_right fun _ => by
    rw [← holds_gate (c := e.calls t)]
    rfl

/-- Releasing a lease touches its own entry only, and nothing at all when that entry was failed or
replaced. -/
theorem Inv.release_frame (h : Inv g) {t : Ticket} :
    (∀ j, j ≠ i → (g.release i t).entries j = g.entries j) ∧
      (¬ g.Stored i → ((g.entries i).calls t).future = .granted → g.release i t = g) := by
  constructor
  · intro j hj
    unfold Store.release
    split
    · rfl
    · split
      · unfold Store.cleanup
        split
        · exact put_of_ne hj
        · exact put_of_ne hj
      · exact put_of_ne hj
  · intro hn hf
    have hr : ((g.entries i).calls t).released := by
      by_contra hr
      exact hn (h.stored_of_holds (holds_iff.mpr ⟨hf, by simpa using hr⟩))
    exact if_pos hr

/-- **Inference admission is exact** in every state any interleaving reaches: `running` counts the
leases granted from the entry and not yet released or failed; each grant was made below the limit in
force, in arrival order, and overtook no pending future; a call that raised has neither a lease nor
a place in the queue; releasing a lease of an entry touches no other entry, and changes nothing when
the entry was failed or replaced; no live waiter is left below the limit in force; and the stored
entries are exactly those with a running lease or a waiter. -/
theorem admission_exact [Inhabited T] (h : Reach step Free Store.init g) :
    (∀ i, (g.entries i).running = (g.entries i).held.card) ∧
      (∀ i, (∀ x ∈ (g.entries i).grants, x.active < x.limit) ∧
        ((g.entries i).grants.map Grant.ticket).Pairwise (· < ·) ∧
        ∀ x ∈ (g.entries i).grants, ∀ t, t < x.ticket →
          ((g.entries i).calls t).future ≠ .pending) ∧
      (∀ i t, ((g.entries i).calls t).stage = .raised →
        t ∉ (g.entries i).held ∧ t ∉ (g.entries i).waiters) ∧
      (∀ i t g', step g (.release i t) = some g' →
        (∀ j, j ≠ i → g'.entries j = g.entries j) ∧ (¬ g.Stored i → g' = g)) ∧
      (∀ i, (g.entries i).running < (g.entries i).cap → ∀ t, (g.entries i).live t = false) ∧
      ∀ i, ¬ (g.entries i).Idle ↔ g.Stored i := by
  have hi := reach_inv h
  refine ⟨fun i => ?_, fun i => ⟨(hi.entry i).below, (hi.entry i).gate.arrival, ?_⟩, ?_, ?_, ?_, ?_⟩
  · rw [← held_gate]
    exact (hi.entry i).gate.count
  · intro x hx t hlt hp
    have ht : t ∈ (g.entries i).waiters := (hi.entry i).queued.mpr (live_iff.mpr hp)
    have hs : x.ticket ∈ (g.entries i).gate.granted := List.mem_map_of_mem hx
    exact absurd ((hi.entry i).gate.ahead _ hs t ht) (Nat.lt_asymm hlt)
  · intro i t hst
    have hgate : ((g.entries i).gate.calls t).stage = .raised := by
      show ((g.entries i).calls t).gate.stage = .raised
      cases hf : ((g.entries i).calls t).future <;> simp [Call.gate, hf, hst, Stage.gate]
    obtain ⟨hh, hl⟩ := (hi.entry i).gate.raised t hgate
    rw [← held_gate, (hi.entry i).gate.mem_held, hh, (hi.entry i).queued, ← live_gate, hl]
    simp
  · intro i t g' hs
    simp only [step] at hs
    split at hs
    · next hf =>
      cases hs
      exact ⟨hi.release_frame.1, fun hn => hi.release_frame.2 hn hf⟩
    · simp at hs
  · intro i hlt t
    cases hl : (g.entries i).live t with
    | false => rfl
    | true =>
      have hw := (hi.entry i).queued.mpr hl
      rw [(hi.entry i).settled hlt] at hw
      exact absurd hw List.not_mem_nil
  · intro i
    refine ⟨fun hb => ?_, fun hst => (hi.stored _ i hst).2.2⟩
    by_contra hn
    exact hb (hi.gone i hn)

/-- One slot. A request runs, one waits, the target is failed, a new request gets the new entry's
slot, and the old lease is released. -/
def failover : List (Label String) :=
  [.acquire "engine" (some 1) none, .acquire "engine" (some 1) none, .fail 0,
    .acquire "engine" (some 1) none, .wake 0 0 false, .wake 0 1 false, .wake 1 0 false]

theorem admission_exact_failover :
    ∃ g g' : Store String, Reach step Free Store.init g ∧ step g (.release 0 0) = some g' ∧
      ((g.entries 0).calls 1).stage = .raised ∧ 1 ∉ (g.entries 0).waiters ∧
      (g.entries 1).running = 1 ∧ g' = g := by
  have hrun : (replay step Free (Store.init : Store String) failover).any (fun g =>
      (step g (.release 0 0)).any fun _ => decide (((g.entries 0).calls 1).stage = .raised ∧
        (g.entries 1).running = 1 ∧ ¬ g.Stored 0)) = true := by decide +kernel
  obtain ⟨g, hr, hg⟩ := reach_any hrun
  obtain ⟨g', hs, hd⟩ := (Option.any_eq_true _ _).mp hg
  obtain ⟨hst, hone, hn⟩ := of_decide_eq_true hd
  obtain ⟨-, -, hraised, hrelease, -, -⟩ := admission_exact hr
  exact ⟨g, g', hr, hs, hst, (hraised 0 1 hst).2, hone, (hrelease 0 0 g' hs).2 hn⟩

end SparkDeck.Admission
