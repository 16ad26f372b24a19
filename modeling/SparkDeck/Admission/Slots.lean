import SparkDeck.PromptGate.Gate

/-!
# Inference admission

Model of the controller's inference slots: `_inference_admission_config`,
`_drain_inference_waiters`, `_acquire_inference_slot`, `_release_inference_slot`,
`_fail_admission_target` and what `_inference_nudger_tick` does to the limit of a target
(`manager.py:14657-14676`, `:14944-15092`, `:15261-15466`).

The store maps a target to the state entry in use, an object: a target whose entry is removed gets a
new one later, while leases of the old one may still be around. So entries are numbered, and the
store says which one a target has now. A call of `_acquire_inference_slot` is a ticket of its entry,
its position in arrival order; the waiter's future and the `_AdmissionLease` are identified with it.

A step is one stretch between two await points, or one call from outside:

* `acquire` runs up to `asyncio.wait`, which always suspends (or raises, or returns no lease);
* `wake i t seen`: the wait returns because the future is done or the client's event was seen;
* `timeout i t`: the wait returns with nothing done; `throw i t`: a task cancellation arrives;
* `release i t`: someone who has the lease (its request, the dead-owner reaper) releases it, any
  number of times; `releaseTarget` is the compatibility path with a plain target;
* `fail i`: `_fail_admission_target` for entry `i`, still stored or not; a reset or a sweep of the
  reaper is one such step for each target;
* `nudge`: the nudger's tick, for one target, with what it makes of the streams as `Verdict`.

The telemetry of an entry (`model`, `group`, `nudger`, times) is not modelled.
-/

namespace SparkDeck.Admission

open Function

open PromptGate (Ticket EventId Grant)

/-- A waiter's future: `granted` when the drain set its result, `failed` when its target was
failed. -/
inductive Future where
  | pending
  | granted
  | failed
  | cancelled
  deriving DecidableEq

/-- Where the coroutine `_acquire_inference_slot` is. -/
inductive Stage where
  /-- Suspended in `asyncio.wait`. -/
  | waiting
  | returned
  | raised
  deriving DecidableEq

structure Call where
  cancel : Option EventId
  future : Future
  /-- `lease.released`. -/
  released : Bool
  stage : Stage

/-- The call's lease has been granted and not yet released or failed. -/
def Call.holds (c : Call) : Bool := c.future == .granted && !c.released

def Call.unused : Call := ⟨none, .cancelled, false, .raised⟩

/-- A state entry, with the calls that were made on it. -/
structure Entry (T : Type*) where
  /-- The key the entry is stored under. -/
  target : T
  limit : ℤ
  /-- `effective_limit`, when the nudger has set it. -/
  effective : Option ℤ
  running : ℤ
  waiters : List Ticket
  /-- The values of `leases`, in the order they were put in. -/
  leases : List Ticket
  calls : Ticket → Call
  /-- The next ticket. -/
  next : Ticket
  /-- History: one entry for each `future.set_result`. -/
  grants : List Grant

namespace Entry

variable {T : Type*} (e : Entry T)

/-- A new entry for `target`. -/
def new (target : T) (limit : ℤ) : Entry T :=
  ⟨target, limit, none, 0, [], [], fun _ => .unused, 0, []⟩

/-- `state.get("effective_limit", state["limit"])`. -/
def cap : ℤ := e.effective.getD e.limit

/-- `not future.done()`. -/
def live (t : Ticket) : Bool := (e.calls t).future == .pending

def setCall (t : Ticket) (c : Call) : Entry T := { e with calls := update e.calls t c }

/-- `_drain_inference_waiters`. -/
def drain : Entry T :=
  let p := Fifo.drain e.live e.cap e.running e.waiters
  { e with
    running := p.active
    waiters := p.waiting
    leases := e.leases ++ p.admitted
    calls := fun t =>
      if t ∈ p.admitted then { e.calls t with future := .granted } else e.calls t
    grants := e.grants ++ p.granted.map fun x => ⟨x.1, x.2, e.cap⟩ }

/-- `state["running"] = max(0, state["running"] - 1)`, and the drain. -/
def free : Entry T := { e with running := max 0 (e.running - 1) }.drain

/-- A lease is marked released and leaves `leases`. -/
def retire (t : Ticket) : Entry T :=
  { e.setCall t { e.calls t with released := true } with leases := e.leases.erase t }

/-- A new waiter at the end of the queue. -/
def enqueue (cancel : Option EventId) : Entry T :=
  { e.setCall e.next ⟨cancel, .pending, false, .waiting⟩ with
    next := e.next + 1, waiters := e.waiters ++ [e.next] }

/-- The wait of a call that got no lease ends: it leaves the queue, its future cancelled if it was
not done. -/
def leave (t : Ticket) : Entry T :=
  let c := e.calls t
  { e.setCall t { c with
      future := if c.future = .pending then .cancelled else c.future, stage := .raised } with
    waiters := e.waiters.erase t }

/-- `_fail_admission_target`, for the entry itself. -/
def fail : Entry T :=
  { e with
    running := 0
    waiters := []
    leases := []
    calls := fun t =>
      let c := e.calls t
      if t ∈ e.waiters ∧ c.future = .pending then { c with future := .failed }
      else if t ∈ e.leases then { c with released := true }
      else c }

/-- No running lease and no waiter. -/
def Idle : Prop := e.running = 0 ∧ e.waiters = []

instance : Decidable e.Idle := inferInstanceAs (Decidable (_ ∧ _))

/-- What the nudger makes of the streams of a target. -/
inductive Verdict where
  /-- A low rate is still being evaluated. -/
  | watching
  /-- The streams stall: down to one slot. -/
  | stalled
  /-- Nothing to stop recovery; `due` when the next step is due. -/
  | steady (due : Bool)

/-- The nudger's clamp of `effective_limit` to the configured limit. -/
def clamp : Entry T := { e with effective := e.effective.map fun n => max 1 (min (max 1 e.limit) n) }

/-- `_inference_nudger_tick`, for one target. -/
def nudge (v : Verdict) : Entry T :=
  let configured := max 1 e.limit
  let e := e.clamp
  match v, e.effective with
  | .watching, _ => e
  | .stalled, _ => { e with effective := some 1 }
  | .steady _, none => e
  | .steady due, some n =>
    if configured ≤ n then { e with effective := none }.drain
    else if due then
      if configured ≤ min configured (n + 1) then { e with effective := none }.drain
      else { e with effective := some (min configured (n + 1)) }.drain
    else e

end Entry

/-- `_inference_admission`: the entries there have been, and the one each target has now. -/
structure Store (T : Type*) where
  current : T → Option ℕ
  entries : ℕ → Entry T
  /-- The next entry. -/
  next : ℕ
  isSet : EventId → Bool

/-- The limit of `_inference_admission_config`, from `int(raw_limit)` if that is one. -/
def configuredLimit : Option ℤ → Option ℤ
  | some n => if n ≤ 0 then none else some n
  | none => none

namespace Store

variable {T : Type*} [DecidableEq T]

def init [Inhabited T] : Store T := ⟨fun _ => none, fun _ => .new default 1, 0, fun _ => false⟩

variable (g : Store T)

def put (i : ℕ) (e : Entry T) : Store T := { g with entries := update g.entries i e }

/-- The entry is the one its target has now. -/
def Stored (i : ℕ) : Prop := g.current (g.entries i).target = some i

instance (i : ℕ) : Decidable (g.Stored i) := inferInstanceAs (Decidable (_ = _))

/-- The entry leaves the store. -/
def drop (i : ℕ) : Store T :=
  { g with current := update g.current (g.entries i).target none }

/-- An entry without running lease and waiter is removed. -/
def cleanup (i : ℕ) : Store T := if (g.entries i).Idle then g.drop i else g

/-- `_release_inference_slot` with a lease. -/
def release (i : ℕ) (t : Ticket) : Store T :=
  if ((g.entries i).calls t).released then g
  else if g.Stored i then (g.put i ((g.entries i).retire t).free).cleanup i
  else g.put i ((g.entries i).retire t)

/-- `_release_inference_slot` with a plain target. -/
def releaseTarget (target : T) : Store T :=
  match g.current target with
  | none => g
  | some i =>
    match (g.entries i).leases with
    | t :: _ => g.release i t
    | [] => (g.put i (g.entries i).free).cleanup i

/-- `store.setdefault(target, {..})`. -/
def setdefault (target : T) (limit : ℤ) : ℕ × Store T :=
  match g.current target with
  | some i => (i, g)
  | none =>
    (g.next, { g.put g.next (.new target limit) with
      current := update g.current target (some g.next), next := g.next + 1 })

/-- `_acquire_inference_slot` up to its wait. Without a limit there is no lease, and a client that
is already gone gets its `ClientAbort` before anything is touched. -/
def acquire (target : T) (raw : Option ℤ) (cancel : Option EventId) : Store T :=
  match configuredLimit raw with
  | none => g
  | some limit =>
    if cancel.any g.isSet then g
    else
      let (i, g) := g.setdefault target limit
      g.put i ({ g.entries i with limit := limit }.enqueue cancel).drain

/-- The `except BaseException` of the call. -/
def unwind (i : ℕ) (t : Ticket) : Store T :=
  let e := g.entries i
  if (e.calls t).future = .granted then
    (g.put i (e.setCall t { e.calls t with stage := .raised })).release i t
  else g.put i (e.leave t)

/-- The call continues: the client's event was seen, or the future is done. -/
def wake (i : ℕ) (t : Ticket) (seen : Bool) : Option (Store T) :=
  let e := g.entries i
  let c := e.calls t
  if c.stage ≠ .waiting then none
  else if seen then if c.cancel.any g.isSet then some (g.unwind i t) else none
  else
    match c.future with
    | .pending => none
    | .granted => some (g.put i (e.setCall t { c with stage := .returned }))
    | .failed | .cancelled => some (g.unwind i t)

/-- `_fail_admission_target`. -/
def fail (i : ℕ) : Store T :=
  let g' := g.put i (g.entries i).fail
  if g'.Stored i then g'.drop i else g'

/-- `_inference_nudger_tick`, for one target. -/
def nudge (target : T) (v : Entry.Verdict) : Store T :=
  match g.current target with
  | none => g
  | some i => g.put i ((g.entries i).nudge v)

end Store

inductive Label (T : Type*) where
  | acquire (target : T) (raw : Option ℤ) (cancel : Option EventId)
  | wake (i : ℕ) (t : Ticket) (seen : Bool)
  | timeout (i : ℕ) (t : Ticket)
  | throw (i : ℕ) (t : Ticket)
  | release (i : ℕ) (t : Ticket)
  | releaseTarget (target : T)
  | fail (i : ℕ)
  | nudge (target : T) (v : Entry.Verdict)
  | setEvent (event : EventId)

variable {T : Type*} [DecidableEq T]

def step (g : Store T) : Label T → Option (Store T)
  | .acquire target raw cancel => some (g.acquire target raw cancel)
  | .wake i t seen => g.wake i t seen
  | .timeout i t =>
    if ((g.entries i).calls t).stage = .waiting ∧ (g.entries i).live t then
      some (g.unwind i t)
    else none
  | .throw i t =>
    if ((g.entries i).calls t).stage = .waiting then some (g.unwind i t) else none
  | .release i t =>
    if ((g.entries i).calls t).future = .granted then some (g.release i t) else none
  | .releaseTarget target => some (g.releaseTarget target)
  | .fail i => if i < g.next then some (g.fail i) else none
  | .nudge target v => some (g.nudge target v)
  | .setEvent event => some { g with isSet := update g.isSet event true }

end SparkDeck.Admission
