import Mathlib.Data.Finset.Card

/-!
# Cluster member load

Model of the load counters of the cluster members and of every path a reservation takes:
`_cluster_member_key`, `_acquire_cluster_member`, `_release_cluster_member`, `_proxy_cluster_member`,
`_proxy_cluster_member_unlimited`, `_tracked_cluster_stream` and the relay of
`_cluster_stream_with_failover` (`manager.py:7677-7709`, `:8063-8305`, `:8552-8913`), with
`PromptGate.run` and `_PromptStream` (`sparkdeck/prompt_gate.py:99-124`, `:190-290`).

A *pass* is one call of `_proxy_cluster_member` and the stream that comes of it. The passes are
numbered in the order they take their reservation, so the number of a pass names its reservation. A
request makes passes one after another: from its task, and after a stream was returned from the
relay around it. A request of the startup benchmark uses the stream of its only pass directly.

A step is one stretch between two await points. Whatever decides between them (which member is
chosen, when the gate grants, what the engine answers, when a cancellation arrives) is in the label,
so a schedule may do more than the event loop would, never less. What is kept of
`_reap_dead_inference_owners` is that it may call the release callback of a tracked request, at any
time. The key of a member is read from its live record at each call and changes when the deployment
is converted to groups (`_convert_sharded_deployment_to_grouped`): `rekey`.
-/

namespace SparkDeck.Cluster

open Function

/-- Where a pass is. -/
inductive Stage where
  /-- In `PromptGate.acquire`. -/
  | queued
  /-- The lease is granted; the task of `dispatch` is created and has not had its first turn. -/
  | admitted
  /-- In `_cluster_member_serving`. -/
  | probing
  /-- A local member: in `_vllm_chat` or `_vllm_completions`. -/
  | proxying
  /-- A remote member: in `_acquire_inference_slot`. -/
  | slotting
  /-- A remote member: the request is tracked and sent. -/
  | sending
  /-- The task of `dispatch` has returned its stream, and `PromptGate.run` has not continued. -/
  | opened
  /-- The stream is out: the generator of the transport itself. -/
  | bare (started : Bool)
  /-- The stream is out: a `_PromptStream` over that generator, whose producer starts it. -/
  | prompt (started : Bool)
  /-- Raised, answered, or the stream is closed. -/
  | over
  deriving DecidableEq

structure Pass (M K : Type*) where
  request : ℕ
  member : M
  /-- The member's key when the reservation was taken; of a gated pass, the key of its copy. -/
  key : K
  gated : Bool
  /-- The member is on another node. -/
  remote : Bool
  /-- `body.get("stream")`. -/
  streaming : Bool
  /-- The `waiting` of a gated pass. -/
  waiting : Bool
  /-- The flag of its `release_once` or `release_member_once`, once that exists. -/
  once : Option Bool
  stage : Stage

/-- The outcome of `dispatch` before the unlimited pass. -/
inductive Dispatch where
  /-- The member's record changed while the pass waited. -/
  | changed
  /-- `_prompt_observation_dispatch` raises. -/
  | raised
  | passed

/-- What happens inside a pass. -/
inductive Event where
  | grant
  | dispatch (d : Dispatch)
  /-- The member is serving. -/
  | ready
  /-- The slot is acquired and the request tracked. -/
  | track
  /-- An exception or a cancellation arrives at the await the pass is in. -/
  | fail
  /-- The response of a request without `stream`. -/
  | reply
  /-- The upstream's response to a request with `stream` is accepted. -/
  | accept
  /-- `PromptGate.run` continues, and wraps the stream. -/
  | wrap
  /-- `PromptGate.run` continues with its client gone or itself cancelled, and closes the stream. -/
  | discard
  /-- The producer of the `_PromptStream` has its first turn. -/
  | produce
  /-- The `finally` of the started generator is through. -/
  | finish
  /-- The reaper calls the release callback. -/
  | reap

namespace Pass

variable {M K : Type*} (p : Pass M K)

def goto (s : Stage) : Pass M K := { p with stage := s }

/-- `release_once` and `release_member_once`: whether `_release_cluster_member` is called. -/
def releaseOnce : Bool × Pass M K :=
  if p.once = some true then (false, p) else (true, { p with once := some true })

/-- The outermost `finally` of `_proxy_cluster_member_unlimited`, when no stream owns the member. -/
def unwind : Bool × Pass M K :=
  if p.once.isSome then (p.releaseOnce.1, p.releaseOnce.2.goto .over) else (true, p.goto .over)

/-- The stream's generator runs, if the stream is the generator itself. -/
def prime : Pass M K :=
  match p.stage with
  | .bare false => p.goto (.bare true)
  | _ => p

/-- Closing the stream. A generator that was never started runs none of its body. -/
def close : Bool × Pass M K :=
  match p.stage with
  | .bare true | .prompt true => (p.releaseOnce.1, p.releaseOnce.2.goto .over)
  | .bare false | .prompt false | .opened => (false, p.goto .over)
  | _ => (false, p)

/-- The stream is out. -/
def Streams : Prop := ∃ b, p.stage = .bare b ∨ p.stage = .prompt b

instance : Decidable p.Streams :=
  decidable_of_iff (p.stage = .bare false ∨ p.stage = .prompt false ∨
    p.stage = .bare true ∨ p.stage = .prompt true) (by simp [Streams, or_assoc])

/-- One event, and whether it calls `_release_cluster_member`. `same` says that the live record of
the member still has the identity of the copy the pass waited with. -/
def advance (same : Bool) : Event → Option (Bool × Pass M K)
  | .grant => if p.stage = .queued then some (false, p.goto .admitted) else none
  | .dispatch d =>
    if p.stage ≠ .admitted then none
    else
      let q := { p with waiting := false }
      match d with
      | .changed => some (true, q.goto .over)
      | .raised => some (false, q.goto .over)
      | .passed => if same then some (false, q.goto .probing) else none
  | .ready =>
    if p.stage = .probing then some (false, p.goto (if p.remote then .slotting else .proxying))
    else none
  | .track =>
    if p.stage = .slotting then some (false, { p with once := some false, stage := .sending })
    else none
  | .fail =>
    match p.stage with
    -- Before its first turn the task of `dispatch` is cancelled without running.
    | .queued | .admitted => some (p.waiting, p.goto .over)
    | .probing | .proxying | .slotting | .sending => some p.unwind
    | _ => none
  | .reply =>
    if p.streaming then none
    else
      match p.stage with
      | .proxying | .sending => some p.unwind
      | _ => none
  | .accept =>
    if p.streaming then
      let out := if p.gated then Stage.opened else .bare false
      match p.stage with
      -- `_tracked_cluster_stream`
      | .proxying => some (false, { p with once := some false, stage := out })
      | .sending => some (false, p.goto out)
      | _ => none
    else none
  | .wrap => if p.stage = .opened then some (false, p.goto (.prompt false)) else none
  | .discard => if p.stage = .opened then some p.close else none
  | .produce => if p.stage = .prompt false then some (false, p.goto (.prompt true)) else none
  | .finish =>
    match p.stage with
    | .bare true | .prompt true => some p.close
    | _ => none
  | .reap => if p.once.isSome then some p.releaseOnce else none

/-- The pass has its reservation: it is not over, and nobody has run its release. -/
def holds : Bool := p.stage ≠ .over ∧ p.once ≠ some true

end Pass

/-- Where a request is. `relay` says that its relay has been started. -/
inductive Control where
  /-- Between two passes. -/
  | selecting (relay : Bool)
  /-- Awaiting `_proxy_cluster_member`. -/
  | passing (relay : Bool) (i : ℕ)
  /-- A stream has been returned and not been pulled: the relay around the stream of pass `i`, or
  that stream itself. -/
  | returned (i : ℕ)
  /-- The relay, or the caller itself, reads the stream of pass `i`. -/
  | reading (i : ℕ)
  /-- The task has finished, and a returned stream is closed or exhausted. -/
  | done
  deriving DecidableEq

structure Request where
  streaming : Bool
  /-- The stream of the pass is used without a relay. -/
  direct : Bool
  control : Control

def Control.current : Control → Option ℕ
  | .passing _ i | .returned i | .reading i => some i
  | .selecting _ | .done => none

structure Load (M K : Type*) where
  /-- `_cluster_member_load_counts`. -/
  loads : K → ℕ
  /-- `_cluster_member_key` of the live record. -/
  key : M → K
  passes : ℕ → Pass M K
  /-- The next pass. -/
  next : ℕ
  requests : ℕ → Request
  /-- The next request. -/
  arrivals : ℕ
  /-- History: how often `_release_cluster_member` ran for the reservation of a pass. -/
  frees : ℕ → ℕ

namespace Load

variable {M K : Type*} [DecidableEq M] [DecidableEq K]

/-- No request yet. -/
def init [Inhabited M] (key : M → K) : Load M K where
  loads := fun _ => 0
  key := key
  passes := fun _ => ⟨0, default, key default, false, false, false, false, none, .over⟩
  next := 0
  requests := fun _ => ⟨false, false, .done⟩
  arrivals := 0
  frees := fun _ => 0

variable (g : Load M K)

/-- `loads[key] = loads.get(key, 0) + 1`. -/
def acquire (k : K) : Load M K := { g with loads := update g.loads k (g.loads k + 1) }

/-- `loads[key] = max(0, loads.get(key, 0) - 1)`. -/
def release (k : K) : Load M K := { g with loads := update g.loads k (g.loads k - 1) }

/-- The key `_release_cluster_member` computes for pass `i`: a gated pass that has not been
dispatched has its own copy of the record. -/
def releaseKey (i : ℕ) : K :=
  let p := g.passes i
  if p.stage = .queued ∨ p.stage = .admitted then p.key else g.key p.member

/-- Pass `i` becomes `p`, after `_release_cluster_member` if `freed`. -/
def put (i : ℕ) (freed : Bool) (p : Pass M K) : Load M K :=
  let g' := { g with passes := update g.passes i p }
  if freed then
    { g'.release (g.releaseKey i) with frees := update g.frees i (g.frees i + 1) }
  else g'

def go (r : ℕ) (c : Control) : Load M K :=
  { g with requests := update g.requests r { g.requests r with control := c } }

/-- A pass of request `r` on `m` begins with its reservation. -/
def begin (r : ℕ) (m : M) (gated remote : Bool) : Load M K :=
  let p : Pass M K :=
    ⟨r, m, g.key m, gated, remote, (g.requests r).streaming, gated, none,
      if gated then .queued else .probing⟩
  { g.acquire (g.key m) with
    passes := update g.passes g.next p
    frees := update g.frees g.next 0
    next := g.next + 1 }

/-- A request is holding a reservation on the members of key `k`. -/
def Holding (k : K) (r : ℕ) : Prop :=
  ∃ i < g.next, (g.passes i).request = r ∧
    ((g.passes i).holds ∧ g.key (g.passes i).member = k)

instance (k : K) (r : ℕ) : Decidable (g.Holding k r) := by unfold Holding; infer_instance

/-- How many requests are. -/
def holders (k : K) : ℕ := ((Finset.range g.arrivals).filter (g.Holding k)).card

end Load

inductive Label (M K : Type*) where
  | arrive (streaming direct : Bool)
  /-- A member is chosen for the request's next pass. -/
  | select (r : ℕ) (m : M) (gated remote : Bool)
  | pass (i : ℕ) (e : Event)
  /-- The request takes note that its pass is over, and goes on to another member or ends. -/
  | settle (r : ℕ) (again : Bool)
  /-- No member is left, or the request is cancelled between two passes. -/
  | stop (r : ℕ)
  /-- `_proxy_cluster_member` returns its stream. -/
  | hand (r : ℕ)
  /-- The first item of a returned stream is pulled. -/
  | pull (r : ℕ)
  /-- A returned stream is closed. `again`: it is the relay that closes the stream it reads, to fail
  over. -/
  | close (r : ℕ) (again : Bool)
  | rekey (m : M) (k : K)

variable {M K : Type*} [DecidableEq M] [DecidableEq K]

def step (g : Load M K) : Label M K → Option (Load M K)
  | .arrive streaming direct =>
    some { g with
      requests := update g.requests g.arrivals ⟨streaming, direct, .selecting false⟩
      arrivals := g.arrivals + 1 }
  | .select r m gated remote =>
    match (g.requests r).control with
    | .selecting relay => some ((g.begin r m gated remote).go r (.passing relay g.next))
    | _ => none
  | .pass i e =>
    if i < g.next then
      match (g.passes i).advance (g.key (g.passes i).member = (g.passes i).key) e with
      | some (freed, p) => some (g.put i freed p)
      | none => none
    else none
  | .settle r again =>
    match (g.requests r).control with
    | .passing relay i =>
      if (g.passes i).stage = .over then
        some (g.go r (if again then .selecting relay else .done))
      else none
    | .reading i =>
      if (g.passes i).stage = .over ∧ (again → (g.requests r).direct = false) then
        some (g.go r (if again then .selecting true else .done))
      else none
    | _ => none
  | .stop r =>
    match (g.requests r).control with
    | .selecting _ => some (g.go r .done)
    | _ => none
  | .hand r =>
    match (g.requests r).control with
    | .passing false i => if (g.passes i).Streams then some (g.go r (.returned i)) else none
    | .passing true i =>
      if (g.passes i).Streams then some ((g.put i false (g.passes i).prime).go r (.reading i))
      else none
    | _ => none
  | .pull r =>
    match (g.requests r).control with
    | .returned i => some ((g.put i false (g.passes i).prime).go r (.reading i))
    | _ => none
  | .close r again =>
    match (g.requests r).control with
    | .returned i =>
      if again then none
      else if (g.requests r).direct then
        some ((g.put i (g.passes i).close.1 (g.passes i).close.2).go r .done)
      else some (g.go r .done)
    | .reading i =>
      if again → (g.requests r).direct = false then
        some ((g.put i (g.passes i).close.1 (g.passes i).close.2).go r
          (if again then .selecting true else .done))
      else none
    | _ => none
  | .rekey m k => some { g with key := update g.key m k }

end SparkDeck.Cluster
