import Mathlib.Data.Finset.Card
import SparkDeck.Lib.Fifo
import SparkDeck.Lib.Transition

/-!
# `PromptGate`: FIFO admission of prompts

Model of `PromptLease` and `PromptGate.refresh` / `PromptGate.acquire`
(`sparkdeck/prompt_gate.py:42-97`).

An `acquire()` call is a `Ticket`, its position in arrival order; the call's future and the lease
that `set_result` puts into it are identified with the ticket. A call runs without interruption
from one await point to the next, so a step of the model is one such stretch:

* `acquire`: from the call to its first suspension (or its return: `asyncio.shield` of a done
  future does not suspend);
* `resume t`: call `t` continues because what it waits for is there (`asyncio.wait` returns when
  the future is done or when the watcher is, which needs the client's event to be set);
* `throw t`: a task cancellation is delivered to call `t` at its await point, whatever else has
  happened meanwhile;
* `release t`: the holder of lease `t` calls `release()`, any number of times;
* `refresh`, `setLimit n` (what `limit()` returns changes), `setEvent e` (a client cancels).

Labels can be taken in any order, so the runs include every order in which asyncio can deliver
grants, cancellations and client cancels. `grants` is history: one entry for each `set_result`,
with the count and the limit the loop compared at that moment.

* `gate_exact`: the accounting of `active`, the limit at every grant, arrival order, nothing left
  behind by a raising `acquire()`, and no live waiter left below the limit by a refresh or by the
  first release of a lease.
* `release_again_idle`: a repeated `release()` does nothing, so it does not admit the waiters a
  raised limit has room for.
-/

namespace SparkDeck.PromptGate

open Transition Function

/-- An `acquire()` call, numbered in arrival order. -/
abbrev Ticket := Nat

/-- A client's cancel event. -/
abbrev EventId := Nat

/-- The future of one call: `granted` when `set_result` gave it its lease. -/
inductive Future where
  | pending
  | granted
  | cancelled
  deriving DecidableEq

/-- Where the coroutine `acquire` is. -/
inductive Stage where
  /-- Suspended in `asyncio.wait((future, watcher))`. -/
  | racing
  /-- Suspended in `asyncio.shield(future)`. -/
  | shielded
  | returned
  | raised
  deriving DecidableEq

/-- One `acquire()` call with its future and, once granted, its `PromptLease.released`. -/
structure Call where
  cancel : Option EventId
  future : Future
  released : Bool
  stage : Stage

/-- The call's lease has been granted and not yet released. -/
def Call.holds (c : Call) : Bool := c.future == .granted && !c.released

/-- History of one grant. -/
structure Grant where
  ticket : Ticket
  active : ℤ
  limit : ℤ

/-- A `PromptGate` and the calls made on it. -/
structure Gate where
  active : ℤ
  /-- `_waiting`. -/
  waiting : List Ticket
  /-- What `limit()` returns now. -/
  limit : ℤ
  isSet : EventId → Bool
  calls : Ticket → Call
  /-- The next ticket. -/
  next : Ticket
  grants : List Grant

def Call.unused : Call := ⟨none, .cancelled, false, .raised⟩

/-- A new gate; no call made, no event set. -/
def Gate.init (limit : ℤ) : Gate := ⟨0, [], limit, fun _ => false, fun _ => .unused, 0, []⟩

/-- `max(1, int(self.limit()))`. -/
def Gate.cap (g : Gate) : ℤ := max 1 g.limit

/-- `not future.done()`. -/
def Gate.live (g : Gate) (t : Ticket) : Bool := (g.calls t).future == .pending

def Gate.setCall (g : Gate) (t : Ticket) (c : Call) : Gate :=
  { g with calls := update g.calls t c }

/-- `PromptGate.refresh`: admit FIFO waiters. -/
def Gate.refresh (g : Gate) : Gate :=
  let p := Fifo.drain g.live g.cap g.active g.waiting
  { g with
    active := p.active
    waiting := p.waiting
    calls := fun t =>
      if t ∈ p.admitted then { g.calls t with future := .granted } else g.calls t
    grants := g.grants ++ p.granted.map fun x => ⟨x.1, x.2, g.limit⟩ }

/-- `PromptLease.release`. -/
def Gate.release (g : Gate) (t : Ticket) : Gate :=
  if (g.calls t).released then g
  else
    { g.setCall t { g.calls t with released := true } with active := g.active - 1 }.refresh

/-- `cancel is not None and cancel.is_set()`. -/
def Gate.cancelled (g : Gate) (cancel : Option EventId) : Bool := cancel.any g.isSet

/-- The `except BaseException` of `acquire`: hand a granted lease back, else cancel the future and
leave the queue. -/
def Gate.unwind (g : Gate) (t : Ticket) : Gate :=
  let c := g.calls t
  if c.future = .granted then (g.setCall t { c with stage := .raised }).release t
  else
    { g.setCall t { c with future := .cancelled, stage := .raised } with
      waiting := g.waiting.erase t }

/-- `create_future` and `_waiting.append`: the new future is at the end of the queue, and the call
will wait for the watcher too when there is a cancel event. -/
def Gate.enqueue (g : Gate) (cancel : Option EventId) : Gate :=
  { g.setCall g.next ⟨cancel, .pending, false, if cancel.isSome then .racing else .shielded⟩ with
    next := g.next + 1, waiting := g.waiting ++ [g.next] }

/-- `acquire(cancel)` up to its first suspension. A client that is already gone gets its
`ClientAbort` before there is a future, and the gate is untouched. -/
def Gate.acquire (g : Gate) (cancel : Option EventId) : Gate :=
  if g.cancelled cancel then g
  else
    let t := g.next
    let g := (g.enqueue cancel).refresh
    if cancel = none ∧ (g.calls t).future = .granted then
      g.setCall t { g.calls t with stage := .returned }
    else g

/-- Call `t` continues at its await point; `none` when what it waits for is not there. -/
def Gate.resume (g : Gate) (t : Ticket) : Option Gate :=
  let c := g.calls t
  match c.stage with
  | .racing =>
    if c.future ≠ .pending ∨ g.cancelled c.cancel then
      if g.cancelled c.cancel then some (g.unwind t)
      else if c.future = .granted then some (g.setCall t { c with stage := .returned })
      else some (g.setCall t { c with stage := .shielded })
    else none
  | .shielded =>
    if c.future = .pending then none
    else if g.cancelled c.cancel then some (g.unwind t)
    else some (g.setCall t { c with stage := .returned })
  | .returned | .raised => none

/-- A task cancellation reaches call `t` at its await point. -/
def Gate.throw (g : Gate) (t : Ticket) : Option Gate :=
  match (g.calls t).stage with
  | .racing | .shielded => some (g.unwind t)
  | .returned | .raised => none

inductive Label where
  | acquire (cancel : Option EventId)
  | resume (t : Ticket)
  | throw (t : Ticket)
  | release (t : Ticket)
  | refresh
  | setLimit (n : ℤ)
  | setEvent (e : EventId)

def step (g : Gate) : Label → Option Gate
  | .acquire cancel => some (g.acquire cancel)
  | .resume t => g.resume t
  | .throw t => g.throw t
  | .release t => if (g.calls t).stage = .returned then some (g.release t) else none
  | .refresh => some g.refresh
  | .setLimit n => some { g with limit := n }
  | .setEvent e => some { g with isSet := update g.isSet e true }

/-! ## The invariant -/

/-- The leases granted and not yet released. -/
def Gate.held (g : Gate) : Finset Ticket := (Finset.range g.next).filter fun t => (g.calls t).holds

/-- The tickets in the order their leases were granted. -/
def Gate.granted (g : Gate) : List Ticket := g.grants.map Grant.ticket

/-- No live waiter below the limit. -/
def Gate.Settled (g : Gate) : Prop := g.active < g.cap → ∀ t, g.live t = false

/-- The step is a refresh, or releases a lease that was not released before. -/
def Frees (g : Gate) (e : Label) (g' : Gate) : Prop :=
  e = .refresh ∨ ∃ t, (g.calls t).released = false ∧ (g'.calls t).released = true

structure Inv (g : Gate) : Prop where
  count : g.active = g.held.card
  sorted : g.waiting.Pairwise (· < ·)
  queued : ∀ t, t ∈ g.waiting ↔ g.live t
  fresh : ∀ t, g.next ≤ t → g.calls t = .unused
  leased : ∀ t, (g.calls t).released → (g.calls t).future = .granted
  raised : ∀ t, (g.calls t).stage = .raised → (g.calls t).holds = false ∧ g.live t = false
  returned : ∀ t, (g.calls t).stage = .returned → (g.calls t).future = .granted
  dead : ∀ t, (g.calls t).future = .cancelled → (g.calls t).stage = .raised
  below : ∀ x ∈ g.grants, x.active < max 1 x.limit
  logged : ∀ t, t ∈ g.granted ↔ (g.calls t).future = .granted
  arrival : g.granted.Pairwise (· < ·)
  ahead : ∀ s ∈ g.granted, ∀ t ∈ g.waiting, s < t

variable {t : Ticket} {g : Gate}

theorem live_iff : g.live t ↔ (g.calls t).future = .pending := by
  simp [Gate.live]

theorem holds_iff {c : Call} : c.holds = true ↔ c.future = .granted ∧ c.released = false := by
  simp [Call.holds]

@[simp] theorem setCall_self (g : Gate) (t : Ticket) (c : Call) : (g.setCall t c).calls t = c :=
  update_self ..

theorem setCall_of_ne (g : Gate) {t u : Ticket} (c : Call) (h : u ≠ t) :
    (g.setCall t c).calls u = g.calls u :=
  update_of_ne h ..

theorem Inv.lt_next (h : Inv g) (ht : g.calls t ≠ .unused) : t < g.next :=
  Nat.lt_of_not_le fun hle => ht (h.fresh t hle)

theorem Inv.lt_next_of_stage (h : Inv g) (ht : (g.calls t).stage ≠ .raised) : t < g.next :=
  h.lt_next fun hc => ht (by rw [hc]; rfl)

theorem Inv.lt_next_of_future (h : Inv g) (ht : (g.calls t).future ≠ .cancelled) : t < g.next :=
  h.lt_next fun hc => ht (by rw [hc]; rfl)

theorem Inv.mem_held (h : Inv g) : t ∈ g.held ↔ (g.calls t).holds := by
  rw [Gate.held, Finset.mem_filter, Finset.mem_range]
  refine ⟨And.right, fun ht => ⟨h.lt_next_of_future ?_, ht⟩⟩
  rw [(holds_iff.mp ht).1]
  simp

/-- The count survives a change that moves no lease. -/
theorem count_congr {g g' : Gate} (hn : g'.next = g.next) (ha : g'.active = g.active)
    (hc : ∀ t, (g'.calls t).holds = (g.calls t).holds) (h : g.active = g.held.card) :
    g'.active = g'.held.card := by
  rw [ha, h]
  simp only [Gate.held, hn, hc]

theorem inv_init (limit : ℤ) : Inv (Gate.init limit) where
  count := rfl
  sorted := List.Pairwise.nil
  queued t := by simp [Gate.init, Gate.live, Call.unused]
  fresh _ _ := rfl
  leased t ht := by simp [Gate.init, Call.unused] at ht
  raised t _ := by simp [Gate.init, Gate.live, Call.unused, Call.holds]
  returned t ht := by simp [Gate.init, Call.unused] at ht
  dead _ _ := rfl
  below x hx := by simp [Gate.init] at hx
  logged t := by simp [Gate.init, Gate.granted, Call.unused]
  arrival := List.Pairwise.nil
  ahead s hs := by simp [Gate.init, Gate.granted] at hs

/-! ## `refresh` -/

/-- The pass `refresh` makes. -/
def Gate.pass (g : Gate) : Fifo.Pass Ticket := Fifo.drain g.live g.cap g.active g.waiting

@[simp] theorem refresh_waiting (g : Gate) : g.refresh.waiting = g.pass.waiting := rfl
@[simp] theorem refresh_next (g : Gate) : g.refresh.next = g.next := rfl

theorem refresh_granted (g : Gate) : g.refresh.granted = g.granted ++ g.pass.admitted := by
  simp [Gate.granted, Gate.refresh, Gate.pass, Fifo.Pass.admitted, Function.comp_def]

theorem refresh_calls_pos (g : Gate) (ht : t ∈ g.pass.admitted) :
    g.refresh.calls t = { g.calls t with future := .granted } :=
  if_pos ht

theorem refresh_calls_neg (g : Gate) (ht : t ∉ g.pass.admitted) : g.refresh.calls t = g.calls t :=
  if_neg ht

@[simp] theorem refresh_released (g : Gate) (t : Ticket) :
    (g.refresh.calls t).released = (g.calls t).released := by
  by_cases ht : t ∈ g.pass.admitted
  · rw [refresh_calls_pos g ht]
  · rw [refresh_calls_neg g ht]

@[simp] theorem refresh_stage (g : Gate) (t : Ticket) :
    (g.refresh.calls t).stage = (g.calls t).stage := by
  by_cases ht : t ∈ g.pass.admitted
  · rw [refresh_calls_pos g ht]
  · rw [refresh_calls_neg g ht]

theorem Inv.admitted_live (ht : t ∈ g.pass.admitted) :
    t ∈ g.waiting ∧ (g.calls t).future = .pending :=
  ⟨(Fifo.mem_admitted ht).1, live_iff.mp (Fifo.mem_admitted ht).2⟩

theorem Inv.refresh_held (h : Inv g) : g.refresh.held = g.held ∪ g.pass.admitted.toFinset := by
  ext t
  rw [Finset.mem_union, List.mem_toFinset, h.mem_held, Gate.held, Finset.mem_filter,
    Finset.mem_range, refresh_next]
  by_cases ht : t ∈ g.pass.admitted
  · have hp := (Inv.admitted_live ht).2
    have hr : (g.calls t).released = false := by
      by_contra hr
      rw [h.leased t (by simpa using hr)] at hp
      cases hp
    rw [refresh_calls_pos g ht]
    simp only [holds_iff, hr, and_self, and_true, ht, or_true, iff_true]
    exact h.lt_next_of_future (by rw [hp]; simp)
  · rw [refresh_calls_neg g ht]
    simp only [ht, or_false, and_iff_right_iff_imp]
    exact fun hh => h.lt_next_of_future (by rw [(holds_iff.mp hh).1]; simp)

/-- **`refresh` keeps the accounting**: every slot it takes is a lease it grants. -/
theorem Inv.refresh (h : Inv g) : Inv g.refresh where
  count := by
    have hs : g.pass.admitted.Pairwise (· < ·) := (Fifo.admitted_pairwise h.sorted).1
    have hd : Disjoint g.held g.pass.admitted.toFinset := by
      rw [Finset.disjoint_left]
      intro t ht hta
      have hp := (Inv.admitted_live (List.mem_toFinset.mp hta)).2
      rw [(holds_iff.mp (h.mem_held.mp ht)).1] at hp
      cases hp
    rw [h.refresh_held, Finset.card_union_of_disjoint hd,
      List.toFinset_card_of_nodup (hs.imp fun hlt => Nat.ne_of_lt hlt), Nat.cast_add, ← h.count]
    exact Fifo.drain_active _ _
  sorted := h.sorted.sublist (Fifo.drain_waiting_sublist _ _)
  queued t := by
    rw [refresh_waiting, live_iff]
    by_cases ht : t ∈ g.pass.admitted
    · rw [refresh_calls_pos g ht]
      simp only [reduceCtorEq, iff_false]
      intro hw
      exact absurd ((Fifo.admitted_pairwise h.sorted).2 t ht t hw) (Nat.lt_irrefl t)
    · rw [refresh_calls_neg g ht, ← live_iff, ← h.queued]
      refine ⟨fun hw => (Fifo.drain_waiting_sublist _ _).subset hw, fun hw => ?_⟩
      exact (Fifo.mem_admitted_or_waiting hw ((h.queued t).mp hw)).resolve_left ht
  fresh t ht := by
    have hn : t ∉ g.pass.admitted := fun hta =>
      absurd (h.lt_next_of_future (by rw [(Inv.admitted_live hta).2]; simp)) (Nat.not_lt.mpr ht)
    rw [refresh_calls_neg g hn]
    exact h.fresh t ht
  leased t ht := by
    by_cases hta : t ∈ g.pass.admitted
    · rw [refresh_calls_pos g hta]
    · rw [refresh_calls_neg g hta] at ht ⊢
      exact h.leased t ht
  raised t ht := by
    rw [refresh_stage] at ht
    have hn : t ∉ g.pass.admitted := fun hta => by
      have hl := (h.raised t ht).2
      rw [(h.queued t).mp (Inv.admitted_live hta).1] at hl
      cases hl
    rw [Gate.live, refresh_calls_neg g hn]
    exact h.raised t ht
  returned t ht := by
    rw [refresh_stage] at ht
    by_cases hta : t ∈ g.pass.admitted
    · rw [refresh_calls_pos g hta]
    · rw [refresh_calls_neg g hta]
      exact h.returned t ht
  dead t ht := by
    by_cases hta : t ∈ g.pass.admitted
    · rw [refresh_calls_pos g hta] at ht
      cases ht
    · rw [refresh_calls_neg g hta] at ht ⊢
      exact h.dead t ht
  below x hx := by
    simp only [Gate.refresh, List.mem_append, List.mem_map] at hx
    obtain hx | ⟨y, hy, rfl⟩ := hx
    · exact h.below x hx
    · exact Fifo.drain_below _ _ y hy
  logged t := by
    rw [refresh_granted, List.mem_append, h.logged]
    by_cases hta : t ∈ g.pass.admitted
    · rw [refresh_calls_pos g hta]
      simp [hta]
    · rw [refresh_calls_neg g hta]
      simp [hta]
  arrival := by
    rw [refresh_granted, List.pairwise_append]
    refine ⟨h.arrival, (Fifo.admitted_pairwise h.sorted).1, fun s hs t ht => ?_⟩
    exact h.ahead s hs t (Inv.admitted_live ht).1
  ahead s hs t ht := by
    rw [refresh_granted, List.mem_append] at hs
    obtain hs | hs := hs
    · exact h.ahead s hs t ((Fifo.drain_waiting_sublist _ _).subset ht)
    · exact (Fifo.admitted_pairwise h.sorted).2 s hs t ht

/-- A refresh leaves no live waiter below the limit. -/
theorem Inv.refresh_settled (h : Inv g) : g.refresh.Settled := by
  intro hlt t
  have hw : g.refresh.waiting = [] := Fifo.drain_full _ _ hlt
  have hq := h.refresh.queued t
  rw [hw] at hq
  simpa using hq

/-! ## One step -/

/-- Moving a call to another await point, or out, changes no lease. -/
theorem Inv.setStage (h : Inv g) (ht : t < g.next) (stage : Stage)
    (hf : (g.calls t).future ≠ .cancelled)
    (hx : stage = .raised → (g.calls t).holds = false ∧ (g.calls t).future ≠ .pending)
    (hr : stage = .returned → (g.calls t).future = .granted) :
    Inv (g.setCall t { g.calls t with stage := stage }) := by
  have hfut : ∀ u, ((g.setCall t { g.calls t with stage := stage }).calls u).future =
      (g.calls u).future := by
    intro u
    by_cases hu : u = t
    · rw [hu, setCall_self]
    · rw [setCall_of_ne g _ hu]
  have hrel : ∀ u, ((g.setCall t { g.calls t with stage := stage }).calls u).released =
      (g.calls u).released := by
    intro u
    by_cases hu : u = t
    · rw [hu, setCall_self]
    · rw [setCall_of_ne g _ hu]
  have hhold : ∀ u, ((g.setCall t { g.calls t with stage := stage }).calls u).holds =
      (g.calls u).holds := fun u => by simp only [Call.holds, hfut, hrel]
  exact {
    count := count_congr (g := g) rfl rfl hhold h.count
    sorted := h.sorted
    queued := fun u => by rw [Gate.live, hfut]; exact h.queued u
    fresh := fun u hu => by
      rw [setCall_of_ne g _ (Nat.ne_of_gt (Nat.lt_of_lt_of_le ht hu))]
      exact h.fresh u hu
    leased := fun u hu => by rw [hfut]; rw [hrel] at hu; exact h.leased u hu
    raised := fun u hu => by
      rw [hhold, Gate.live, hfut]
      by_cases hut : u = t
      · rw [hut, setCall_self] at hu
        rw [hut]
        exact ⟨(hx hu).1, by simpa using (hx hu).2⟩
      · rw [setCall_of_ne g _ hut] at hu
        exact h.raised u hu
    returned := fun u hu => by
      rw [hfut]
      by_cases hut : u = t
      · rw [hut, setCall_self] at hu
        rw [hut]
        exact hr hu
      · rw [setCall_of_ne g _ hut] at hu
        exact h.returned u hu
    dead := fun u hu => by
      rw [hfut] at hu
      by_cases hut : u = t
      · exact absurd (hut ▸ hu) hf
      · rw [setCall_of_ne g _ hut]
        exact h.dead u hu
    below := h.below
    logged := fun u => by rw [hfut]; exact h.logged u
    arrival := h.arrival
    ahead := h.ahead }

/-- The first release of a lease, before the refresh it ends with. -/
def Gate.retire (g : Gate) (t : Ticket) (stage : Stage) : Gate :=
  { g.setCall t { g.calls t with stage := stage, released := true } with active := g.active - 1 }

theorem Inv.retire (h : Inv g) (hf : (g.calls t).future = .granted)
    (hr : (g.calls t).released = false) (stage : Stage) : Inv (g.retire t stage) := by
  have ht : t < g.next := h.lt_next_of_future (by rw [hf]; simp)
  have hself : (g.retire t stage).calls t = { g.calls t with stage := stage, released := true } :=
    setCall_self g t _
  have hne : ∀ u, u ≠ t → (g.retire t stage).calls u = g.calls u :=
    fun u hu => setCall_of_ne g _ hu
  have hfut : ∀ u, ((g.retire t stage).calls u).future = (g.calls u).future := by
    intro u
    by_cases hu : u = t
    · rw [hu, hself]
    · rw [hne u hu]
  have hheld : (g.retire t stage).held = g.held.erase t := by
    ext u
    rw [Finset.mem_erase, Gate.held, Gate.held, Finset.mem_filter, Finset.mem_filter]
    by_cases hu : u = t
    · simp [hu, hself, Call.holds]
    · rw [hne u hu]
      simp [hu, Gate.retire, Gate.setCall]
  have hmem : t ∈ g.held := h.mem_held.mpr (holds_iff.mpr ⟨hf, hr⟩)
  exact {
    count := by
      have hc := Finset.card_erase_add_one hmem
      have hg : (g.retire t stage).active = g.active - 1 := rfl
      rw [hheld, hg, h.count, ← hc]
      push_cast
      omega
    sorted := h.sorted
    queued := fun u => by rw [Gate.live, hfut]; exact h.queued u
    fresh := fun u hu => by
      rw [hne u (Nat.ne_of_gt (Nat.lt_of_lt_of_le ht hu))]
      exact h.fresh u hu
    leased := fun u hu => by
      rw [hfut]
      by_cases hut : u = t
      · rw [hut, hf]
      · rw [hne u hut] at hu
        exact h.leased u hu
    raised := fun u hu => by
      rw [Gate.live, hfut]
      by_cases hut : u = t
      · rw [hut, hself, hf]
        exact ⟨by simp [Call.holds], rfl⟩
      · rw [hne u hut] at hu ⊢
        exact h.raised u hu
    returned := fun u hu => by
      rw [hfut]
      by_cases hut : u = t
      · rw [hut, hf]
      · rw [hne u hut] at hu
        exact h.returned u hu
    dead := fun u hu => by
      rw [hfut] at hu
      have hut : u ≠ t := fun hut => by rw [hut, hf] at hu; cases hu
      rw [hne u hut]
      exact h.dead u hu
    below := h.below
    logged := fun u => by rw [hfut]; exact h.logged u
    arrival := h.arrival
    ahead := h.ahead }

theorem release_again (hr : (g.calls t).released) : g.release t = g :=
  if_pos hr

theorem release_first (hr : (g.calls t).released = false) :
    g.release t = (g.retire t (g.calls t).stage).refresh :=
  if_neg (by simp [hr])

theorem Inv.release (h : Inv g) (hf : (g.calls t).future = .granted) : Inv (g.release t) := by
  cases hr : (g.calls t).released with
  | true => rwa [release_again hr]
  | false =>
    rw [release_first hr]
    exact (h.retire hf hr _).refresh

/-- A raising `acquire` hands a granted lease back once: `released` was set already, or it is set
now. -/
theorem unwind_granted (hf : (g.calls t).future = .granted) :
    g.unwind t = if (g.calls t).released then g.setCall t { g.calls t with stage := .raised }
      else (g.retire t .raised).refresh := by
  simp only [Gate.unwind, if_pos hf]
  simp only [Gate.release, setCall_self]
  split <;> simp [Gate.retire, Gate.setCall]

theorem unwind_pending (hf : (g.calls t).future ≠ .granted) :
    g.unwind t = { g.setCall t { g.calls t with future := .cancelled, stage := .raised } with
      waiting := g.waiting.erase t } :=
  if_neg hf

/-- A call that is unwound leaves the queue, its future never to be granted. -/
theorem Inv.leave (h : Inv g) (hf : (g.calls t).future = .pending) : Inv (g.unwind t) := by
  have ht : t < g.next := h.lt_next_of_future (by rw [hf]; simp)
  rw [unwind_pending (by rw [hf]; simp)]
  have hself := setCall_self g t { g.calls t with future := .cancelled, stage := .raised }
  have hne : ∀ u, u ≠ t →
      (g.setCall t { g.calls t with future := .cancelled, stage := .raised }).calls u =
        g.calls u := fun u hu => setCall_of_ne g _ hu
  have hnd : g.waiting.Nodup := h.sorted.imp fun hlt => Nat.ne_of_lt hlt
  have hhold : ∀ u, ((g.setCall t
      { g.calls t with future := .cancelled, stage := .raised }).calls u).holds =
        (g.calls u).holds := by
    intro u
    by_cases hu : u = t
    · rw [hu, hself]
      simp only [Call.holds, hf]
      rfl
    · rw [hne u hu]
  exact {
    count := count_congr (g := g) rfl rfl hhold h.count
    sorted := h.sorted.sublist List.erase_sublist
    queued := fun u => by
      rw [hnd.mem_erase_iff, Gate.live]
      by_cases hu : u = t
      · rw [hu, hself]
        simp
      · rw [hne u hu, h.queued]
        exact and_iff_right hu
    fresh := fun u hu => by
      rw [hne u (Nat.ne_of_gt (Nat.lt_of_lt_of_le ht hu))]
      exact h.fresh u hu
    leased := fun u hu => by
      by_cases hut : u = t
      · rw [hut, hself] at hu
        rw [h.leased t hu] at hf
        cases hf
      · rw [hne u hut] at hu ⊢
        exact h.leased u hu
    raised := fun u hu => by
      rw [Gate.live]
      by_cases hut : u = t
      · rw [hut, hself]
        exact ⟨rfl, rfl⟩
      · rw [hne u hut] at hu ⊢
        exact h.raised u hu
    returned := fun u hu => by
      by_cases hut : u = t
      · rw [hut, hself] at hu
        cases hu
      · rw [hne u hut] at hu ⊢
        exact h.returned u hu
    dead := fun u hu => by
      by_cases hut : u = t
      · rw [hut, hself]
      · rw [hne u hut] at hu ⊢
        exact h.dead u hu
    below := h.below
    logged := fun u => (h.logged u).trans (by
      by_cases hut : u = t
      · rw [hut, hself, hf]
        simp
      · rw [hne u hut])
    arrival := h.arrival
    ahead := fun s hs u hu => h.ahead s hs u (List.erase_sublist.subset hu) }

/-- **An `acquire` that raises** keeps the accounting, whatever had happened to its future. -/
theorem Inv.unwind (h : Inv g) (hs : (g.calls t).stage ≠ .raised) : Inv (g.unwind t) := by
  cases hf : (g.calls t).future with
  | pending => exact h.leave hf
  | cancelled => exact absurd (h.dead t hf) hs
  | granted =>
    rw [unwind_granted hf]
    cases hr : (g.calls t).released with
    | false => exact (h.retire hf hr _).refresh
    | true =>
      refine h.setStage (h.lt_next_of_stage hs) .raised (by rw [hf]; simp) (fun _ => ?_)
        nofun
      simp [Call.holds, hf, hr]

theorem Inv.enqueue (h : Inv g) (cancel : Option EventId) : Inv (g.enqueue cancel) := by
  have hself : (g.enqueue cancel).calls g.next =
      ⟨cancel, .pending, false, if cancel.isSome then .racing else .shielded⟩ :=
    setCall_self g g.next _
  have hne : ∀ u, u ≠ g.next → (g.enqueue cancel).calls u = g.calls u :=
    fun u hu => setCall_of_ne g _ hu
  have hlt : ∀ u ∈ g.waiting, u < g.next := fun u hu =>
    h.lt_next_of_future (by rw [live_iff.mp ((h.queued u).mp hu)]; simp)
  have hstage : ((g.enqueue cancel).calls g.next).stage ≠ .raised ∧
      ((g.enqueue cancel).calls g.next).stage ≠ .returned := by
    rw [hself]
    cases cancel <;> simp
  have hheld : (g.enqueue cancel).held = g.held := by
    have hn : (g.enqueue cancel).next = g.next + 1 := rfl
    ext u
    simp only [Gate.held, hn, Finset.mem_filter, Finset.mem_range, Nat.lt_succ_iff_lt_or_eq]
    by_cases hu : u = g.next
    · rw [hu, hself]
      simp [Call.holds]
    · simp [hu, hne u hu]
  exact {
    count := h.count.trans (by rw [hheld])
    sorted := List.pairwise_append.mpr ⟨h.sorted, List.pairwise_singleton _ _, fun s hs t ht => by
      rw [List.mem_singleton.mp ht]
      exact hlt s hs⟩
    queued := fun u => by
      have hw : (g.enqueue cancel).waiting = g.waiting ++ [g.next] := rfl
      rw [hw, List.mem_append, List.mem_singleton, live_iff]
      by_cases hu : u = g.next
      · rw [hu, hself]
        simp
      · rw [hne u hu, h.queued, live_iff]
        simp [hu]
    fresh := fun u hu => by
      rw [hne u (Nat.ne_of_gt hu)]
      exact h.fresh u (Nat.le_of_succ_le hu)
    leased := fun u hu => by
      by_cases hut : u = g.next
      · rw [hut, hself] at hu
        cases hu
      · rw [hne u hut] at hu ⊢
        exact h.leased u hu
    raised := fun u hu => by
      rw [Gate.live]
      by_cases hut : u = g.next
      · exact absurd (hut ▸ hu) hstage.1
      · rw [hne u hut] at hu ⊢
        exact h.raised u hu
    returned := fun u hu => by
      by_cases hut : u = g.next
      · exact absurd (hut ▸ hu) hstage.2
      · rw [hne u hut] at hu ⊢
        exact h.returned u hu
    dead := fun u hu => by
      by_cases hut : u = g.next
      · rw [hut, hself] at hu
        cases hu
      · rw [hne u hut] at hu ⊢
        exact h.dead u hu
    below := h.below
    logged := fun u => (h.logged u).trans (by
      by_cases hut : u = g.next
      · rw [hut, hself, h.fresh g.next (Nat.le_refl _)]
        simp [Call.unused]
      · rw [hne u hut])
    arrival := h.arrival
    ahead := fun s hs u hu => by
      obtain hu | hu := List.mem_append.mp hu
      · exact h.ahead s hs u hu
      · rw [List.mem_singleton.mp hu]
        exact h.lt_next_of_future (by rw [(h.logged s).mp hs]; simp) }

/-- What `acquire` does: nothing for a client that is already gone, else it joins the queue, and a
call without cancel event returns at once when its lease is there. -/
theorem acquire_cases (g : Gate) (cancel : Option EventId) :
    g.acquire cancel = g ∨ g.acquire cancel = (g.enqueue cancel).refresh ∨
      (((g.enqueue cancel).refresh.calls g.next).future = .granted ∧
        g.acquire cancel = (g.enqueue cancel).refresh.setCall g.next
          { (g.enqueue cancel).refresh.calls g.next with stage := .returned }) := by
  unfold Gate.acquire
  split
  · exact Or.inl rfl
  · simp only
    split
    next hc => exact Or.inr (Or.inr ⟨hc.2, rfl⟩)
    next => exact Or.inr (Or.inl rfl)

theorem Inv.acquire (h : Inv g) (cancel : Option EventId) : Inv (g.acquire cancel) := by
  obtain ha | ha | ⟨hf, ha⟩ := acquire_cases g cancel
  · rwa [ha]
  · rw [ha]
    exact (h.enqueue cancel).refresh
  · rw [ha]
    exact (h.enqueue cancel).refresh.setStage (Nat.lt_succ_self _) .returned (by rw [hf]; simp)
      nofun (fun _ => hf)

/-- What a call that continues does: it unwinds, or it moves on with its lease. -/
theorem resume_cases {g g' : Gate} (hs : g.resume t = some g') :
    (g.calls t).stage ≠ .raised ∧ (g' = g.unwind t ∨ (g.calls t).future ≠ .pending ∧
      ∃ stage, stage ≠ .raised ∧ g' = g.setCall t { g.calls t with stage := stage }) := by
  unfold Gate.resume at hs
  cases hst : (g.calls t).stage with
  | returned | raised => simp [hst] at hs
  | racing =>
    refine ⟨by simp, ?_⟩
    simp only [hst] at hs
    split at hs
    · next hw =>
      split at hs
      · exact Or.inl (Option.some.inj hs).symm
      · next hc =>
        have hf := hw.resolve_right hc
        split at hs
        · exact Or.inr ⟨hf, .returned, by simp, (Option.some.inj hs).symm⟩
        · exact Or.inr ⟨hf, .shielded, by simp, (Option.some.inj hs).symm⟩
    · simp at hs
  | shielded =>
    refine ⟨by simp, ?_⟩
    simp only [hst] at hs
    split at hs
    · simp at hs
    · next hf =>
      split at hs
      · exact Or.inl (Option.some.inj hs).symm
      · exact Or.inr ⟨hf, .returned, by simp, (Option.some.inj hs).symm⟩

theorem throw_cases {g g' : Gate} (hs : g.throw t = some g') :
    (g.calls t).stage ≠ .raised ∧ g' = g.unwind t := by
  unfold Gate.throw at hs
  cases hst : (g.calls t).stage <;> simp [hst] at hs ⊢ <;> exact hs.symm

theorem release_cases {g g' : Gate} (hs : step g (.release t) = some g') :
    (g.calls t).stage = .returned ∧ g' = g.release t := by
  simp only [step] at hs
  split at hs
  · next hst => exact ⟨hst, (Option.some.inj hs).symm⟩
  · simp at hs

/-- **Every step keeps the accounting.** -/
theorem Inv.step {g g' : Gate} {e : Label} (h : Inv g) (hs : step g e = some g') : Inv g' := by
  cases e with
  | acquire cancel =>
    cases hs
    exact h.acquire cancel
  | resume t =>
    obtain ⟨hst, rfl | ⟨hf, stage, hx, rfl⟩⟩ := resume_cases hs
    · exact h.unwind hst
    · have hg : (g.calls t).future = .granted := by
        cases hfut : (g.calls t).future with
        | granted => rfl
        | pending => exact absurd hfut hf
        | cancelled => exact absurd (h.dead t hfut) hst
      exact h.setStage (h.lt_next_of_stage hst) stage (by rw [hg]; simp)
        (fun hc => absurd hc hx) (fun _ => hg)
  | throw t =>
    obtain ⟨hst, rfl⟩ := throw_cases hs
    exact h.unwind hst
  | release t =>
    obtain ⟨hst, rfl⟩ := release_cases hs
    exact h.release (h.returned t hst)
  | refresh =>
    cases hs
    exact h.refresh
  | setLimit n | setEvent e =>
    cases hs
    exact { h with }

theorem reach_inv {limit : ℤ} (h : Reach step Free (Gate.init limit) g) : Inv g :=
  h.invariant (inv_init limit) fun _ _ _ ha _ hs => ha.step hs

theorem setStage_released (g : Gate) (t u : Ticket) (stage : Stage) :
    ((g.setCall t { g.calls t with stage := stage }).calls u).released =
      (g.calls u).released := by
  by_cases hu : u = t
  · rw [hu, setCall_self]
  · rw [setCall_of_ne g _ hu]

/-- A call that is unwound ends in a refresh, or releases nothing. -/
theorem unwind_released (g : Gate) (t : Ticket) :
    (∃ x, g.unwind t = (x : Gate).refresh ∧ x = g.retire t .raised ∧
      (g.calls t).future = .granted ∧ (g.calls t).released = false) ∨
      ∀ u, ((g.unwind t).calls u).released = (g.calls u).released := by
  by_cases hf : (g.calls t).future = .granted
  · rw [unwind_granted hf]
    cases hr : (g.calls t).released with
    | false => exact Or.inl ⟨_, rfl, rfl, hf, rfl⟩
    | true => exact Or.inr fun u => setStage_released g t u .raised
  · refine Or.inr fun u => ?_
    rw [unwind_pending hf, Gate.setCall]
    by_cases hu : u = t
    · simp [hu]
    · simp [update_of_ne hu]

/-- A step that frees a slot ends in a refresh. -/
theorem Frees.settled {g g' : Gate} {e : Label} (hf : Frees g e g') (h : Inv g)
    (hs : step g e = some g') : g'.Settled := by
  obtain rfl | ⟨u, hu, hu'⟩ := hf
  · cases hs
    exact h.refresh_settled
  · have hsame : ∀ {x : Gate}, x = g' → (x.calls u).released ≠ (g.calls u).released := by
      rintro x rfl
      rw [hu, hu']
      simp
    have hunwind : ∀ t, (g.calls t).stage ≠ .raised → g.unwind t = g' → g'.Settled := by
      rintro t - ht
      obtain ⟨x, hx, rfl, hg, hr⟩ | hn := unwind_released g t
      · rw [← ht, hx]
        exact (h.retire hg hr _).refresh_settled
      · exact absurd (hn u) (hsame ht)
    cases e with
    | acquire cancel =>
      have hq : ((g.enqueue cancel).refresh.calls u).released = (g.calls u).released := by
        rw [refresh_released]
        by_cases hun : u = g.next
        · rw [hun]
          refine (congrArg Call.released (setCall_self g g.next _)).trans ?_
          rw [h.fresh g.next (Nat.le_refl _)]
          rfl
        · exact congrArg Call.released (setCall_of_ne g _ hun)
      have hg := Option.some.inj hs
      obtain ha | ha | ⟨-, ha⟩ := acquire_cases g cancel
      · exact absurd rfl (hsame (ha.symm.trans hg))
      · exact absurd hq (hsame (ha.symm.trans hg))
      · exact absurd ((setStage_released _ _ u .returned).trans hq) (hsame (ha.symm.trans hg))
    | resume t =>
      obtain ⟨hst, hc | ⟨-, stage, -, hc⟩⟩ := resume_cases hs
      · exact hunwind t hst hc.symm
      · exact absurd (setStage_released g t u stage) (hsame hc.symm)
    | throw t =>
      obtain ⟨hst, hc⟩ := throw_cases hs
      exact hunwind t hst hc.symm
    | release t =>
      obtain ⟨hst, hc⟩ := release_cases hs
      cases hr : (g.calls t).released with
      | true => exact absurd rfl (hsame ((release_again hr).symm.trans hc.symm))
      | false =>
        rw [hc, release_first hr]
        exact (h.retire (h.returned t hst) hr _).refresh_settled
    | refresh => exact absurd (refresh_released g u) (hsame (Option.some.inj hs))
    | setLimit n | setEvent ev =>
      cases hs
      cases hu.symm.trans hu'

/-! ## The gate over whole runs -/

/-- **The gate is exact** in every state any interleaving reaches: `active` counts the leases
granted and not released; each grant was made below the limit of its moment; the grants are in
arrival order and overtake no pending future; a call that raised holds nothing and is not queued;
and a refresh, or the first release of a lease, leaves no live waiter below the limit. -/
theorem gate_exact {limit : ℤ} {g : Gate} (h : Reach step Free (Gate.init limit) g) :
    (g.active = g.held.card ∧ 0 ≤ g.active) ∧
      (∀ x ∈ g.grants, x.active < max 1 x.limit) ∧
      ((∀ t, t ∈ g.granted ↔ (g.calls t).future = .granted) ∧ g.granted.Pairwise (· < ·) ∧
        ∀ s ∈ g.granted, ∀ t, t < s → (g.calls t).future ≠ .pending) ∧
      (∀ t, (g.calls t).stage = .raised → t ∉ g.held ∧ t ∉ g.waiting) ∧
      ∀ e g', step g e = some g' → Frees g e g' → g'.Settled := by
  have hi := reach_inv h
  refine ⟨⟨hi.count, ?_⟩, hi.below, ⟨hi.logged, hi.arrival, ?_⟩, ?_, ?_⟩
  · rw [hi.count]
    exact Int.natCast_nonneg _
  · intro s hs t hts hp
    have ht : t ∈ g.waiting := (hi.queued t).mpr (live_iff.mpr hp)
    exact absurd (hi.ahead s hs t ht) (Nat.lt_asymm hts)
  · intro t ht
    obtain ⟨hh, hl⟩ := hi.raised t ht
    rw [hi.mem_held, hi.queued, hh, hl]
    simp
  · exact fun e g' hs hf => hf.settled hi hs

/-- One slot. The lease reaches call 1 together with its client's cancel, is handed back, and call
2 gets it. -/
def handback : List Label :=
  [.acquire none, .acquire (some 0), .acquire none, .setEvent 0, .release 0, .resume 1, .resume 2]

theorem gate_exact_handback :
    ∃ g, Reach step Free (Gate.init 1) g ∧ g.granted = [0, 1, 2] ∧ (g.calls 1).stage = .raised ∧
      g.active = g.held.card ∧ 1 ∉ g.held ∧ 1 ∉ g.waiting := by
  have hrun : (replay step Free (Gate.init 1) handback).any (fun g =>
      decide (g.granted = [0, 1, 2] ∧ (g.calls 1).stage = .raised)) = true := by decide
  obtain ⟨g, hr, hg⟩ := reach_any hrun
  obtain ⟨hgr, hst⟩ := of_decide_eq_true hg
  have hx := gate_exact hr
  exact ⟨g, hr, hgr, hst, hx.1.1, hx.2.2.2.1 1 hst⟩

/-- One slot, held by call 1 after call 0 released it; call 2 waits when the limit becomes 2. -/
def raisedLimit : List Label :=
  [.acquire none, .release 0, .acquire none, .acquire none, .setLimit 2]

/-- **A repeated release admits nobody**: lease 0 is released again, and call 2 stays pending below
the limit. -/
theorem release_again_idle :
    ∃ g g', Reach step Free (Gate.init 1) g ∧ step g (.release 0) = some g' ∧ ¬ g'.Settled := by
  have hrun : (replay step Free (Gate.init 1) raisedLimit).any (fun g =>
      (step g (.release 0)).any fun g' => decide (g'.live 2 = true ∧ g'.active < g'.cap)) =
        true := by decide
  obtain ⟨g, hr, hg⟩ := reach_any hrun
  obtain ⟨g', hs, hd⟩ := (Option.any_eq_true _ _).mp hg
  obtain ⟨hl, hlt⟩ := of_decide_eq_true hd
  exact ⟨g, g', hr, hs, fun h => absurd hl (by rw [h hlt 2]; simp)⟩

end SparkDeck.PromptGate
