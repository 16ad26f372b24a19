import SparkDeck.Lib.Nested
import SparkDeck.Lib.Transition
import SparkDeck.Proxy.Routing

/-!
# Requests of the gateway

Model of concurrent `proxy` requests (`sparkdeck/service.py:9101-9235`), of the observations they
keep in `_community_active_observations` (`:9276-9368`), and of the streams they return.

A request that streams is a tower of frames over the upstream stream the manager handed back
(`Nested`): `_release_routing_slot_stream` if there is a slot, `_community_observed_stream`, and
under them what `_proxy_registered` or the legacy path returned. `Path` says which: the manager's
own gate (`_proxy_managed`, `:9570`), the service's prompt gate around it (`:9379`), the gate around
an endpoint's HTTP stream (`:9649`, `:9685`), or the gate around the manager's legacy proxies. The
gate's `run` closes a stream that it does not hand off (`sparkdeck/prompt_gate.py:99-124`).

A step is one request going on by itself, or the environment. The streams are over-approximated: a
frame's body may be left at any time, and the tasks behind a frame go on in any order. An upstream
that was closed is over whatever its own `finally` did. What is awaited before the selection
(`Lookup`), the scopes of an observation and how the awaited call ends are up to the environment.

`Clean` is the condition under which `SparkDeck.Proxy.NoLeak` proves that nothing leaks.
-/

namespace SparkDeck.Proxy

open Nested (Mode Status Frame Tower Act)

inductive Wrapper where
  /-- `_release_routing_slot_stream`. -/
  | release
  /-- `_community_observed_stream`. -/
  | observed
  /-- `_PromptStream`. -/
  | prompt
  /-- `_observe_stream`. -/
  | observe
  /-- `_consume_http_stream`. -/
  | http
  | upstream
  deriving DecidableEq

def Wrapper.mode : Wrapper → Mode
  | .release | .observed | .http => .generator
  | .prompt => .eager
  | .observe => .relay
  | .upstream => .source

/-- How the request gets to the upstream. -/
inductive Path where
  | managed
  | gated
  | endpoint
  | legacy
  deriving DecidableEq

def fresh (k : Wrapper) : Frame Wrapper := ⟨k, .fresh⟩

/-- The stream that the gate's factory, or `_proxy_managed` without a gate, returns. -/
def Path.result : Path → Tower Wrapper
  | .managed | .gated => [fresh .observe, ⟨.upstream, .live⟩]
  | .endpoint => [fresh .http, ⟨.upstream, .live⟩]
  | .legacy => [⟨.upstream, .live⟩]

inductive Phase where
  /-- Before the selection. -/
  | selecting
  /-- In the `try`, without a stream. -/
  | calling
  /-- The gate's factory returned a stream, and `run` has not gone on. -/
  | dispatched (p : Path)
  /-- `run` closes a stream that it does not hand off. -/
  | discarding
  /-- In `_legacy_model_identity`, with the manager's stream at hand. -/
  | identifying
  /-- The stream was returned. -/
  | streaming
  /-- `proxy` raised, or returned no stream. -/
  | ended
  deriving DecidableEq

structure Request where
  phase : Phase
  /-- `deployment is None`. -/
  legacy : Bool
  /-- `routing_slot`. -/
  slot : Option String
  tower : Tower Wrapper
  /-- History: calls of `_release_routing_slot`. -/
  releases : ℕ

namespace Request

def new : Request := ⟨.selecting, false, none, [], 0⟩

variable (q : Request)

/-- `proxy` ended without a stream, or the stream it returned is over. -/
def isOver : Bool :=
  q.phase = .ended || q.phase = .streaming && q.tower.head?.any Frame.isOver

/-- The slot the request has. -/
def holds : Option String := if q.isOver then none else q.slot

def reserved : ℕ := if q.slot.isSome then 1 else 0

/-- The wrappers of `proxy` itself. -/
def wrappers : List Wrapper := (if q.slot.isSome then [.release] else []) ++ [.observed]

/-- `proxy` returns the stream. -/
def stream (t : Tower Wrapper) : Request :=
  { q with phase := .streaming, tower := q.wrappers.map fresh ++ t }

/-- The upstream is being pulled. -/
def pulling : Bool :=
  match q.tower.reverse with
  | source :: reader :: _ => source.status = .live && reader.status = .live
  | _ => false

/-- The outermost frame is pulled and closed by who has it: the client a returned stream, the gate
one it discards. -/
def allows : Act → Bool
  | .start 0 => q.phase = .streaming || q.tower.head?.any (·.kind.mode = .eager)
  | .close 0 => q.phase = .streaming || q.phase = .discarding
  | _ => true

/-- The act ends the `finally` of frame `k`. -/
def unwinds (k : Wrapper) : Act → Bool
  | .finish i => q.tower[i]?.any (·.kind = k)
  | _ => false

/-- The producer of `_observe_stream` comes to its `finally`, or to the end of its stream. -/
def produced : Act → Bool
  | .leave i | .close i => q.tower[i]?.any fun f => f.kind = .observe && f.status = .live
  | _ => false

/-- The request after an act of its streams. -/
def after (t : Tower Wrapper) (a : Act) : Request :=
  { q with tower := t, releases := q.releases + if q.unwinds .release a then 1 else 0 }

end Request

structure Observation where
  scopes : Finset String
  contaminated : Bool

structure State where
  counters : Counters
  /-- The observation of each request. -/
  observations : ℕ → Observation
  /-- `_community_active_observations`; an observation has the number of its request as `id`. -/
  active : Finset ℕ
  requests : List Request

namespace State

def init : State :=
  ⟨⟨fun _ => none, .empty, fun _ => none⟩, fun _ => ⟨∅, false⟩, ∅, []⟩

variable (s : State)

def set (r : ℕ) (q : Request) : State := { s with requests := s.requests.set r q }

/-- `_community_observation_start`, deferred. -/
def communityObservationStart (r : ℕ) (scopes : Finset String) : State :=
  { s with
    observations := Function.update s.observations r
      ⟨if scopes = ∅ then {"unspecified"} else scopes, false⟩ }

/-- The active observations whose scopes meet `scopes`. -/
def overlapping (r : ℕ) (scopes : Finset String) : Finset ℕ :=
  s.active.filter fun a => a ≠ r ∧ scopes ∩ (s.observations a).scopes ≠ ∅

/-- `_community_observation_activate`; a request of `proxy` is no startup benchmark. -/
def communityObservationActivate (r : ℕ) (scopes : Finset String) : State :=
  let others := s.overlapping r scopes
  { s with
    observations := fun k =>
      if k = r then ⟨scopes, (s.observations r).contaminated || others ≠ ∅⟩
      else if k ∈ others then { s.observations k with contaminated := true }
      else s.observations k
    active := insert r s.active }

/-- `_community_observation_end`. -/
def communityObservationEnd (r : ℕ) : State := { s with active := s.active.erase r }

/-- `_release_routing_slot`, if there is a slot. -/
def releaseSlot (slot : Option String) : State :=
  match slot with
  | some id => { s with counters := s.counters.releaseRoutingSlot id }
  | none => s

/-- The `finally` of `proxy` without a stream. -/
def settle (r : ℕ) (q : Request) : State :=
  ((s.communityObservationEnd r).releaseSlot q.slot).set r
    { q with phase := .ended, releases := q.releases + q.reserved }

end State

/-- What a request does next. -/
inductive Op where
  /-- It raises before the selection. -/
  | refuse
  /-- The selection, and everything up to the `try`; `raised` if something there raises. -/
  | route (model : String) (lookup : Lookup) (scopes : Finset String) (raised : Bool)
  /-- The gate's dispatch, or a dispatch while the upstream is pulled, activates the observation. -/
  | activate (scopes : Finset String)
  /-- The awaited call raises or returns no stream. -/
  | settle
  /-- The manager hands back a stream. -/
  | hand (p : Path)
  /-- The gate hands off the stream. -/
  | handOff
  /-- The gate does not. -/
  | abandon
  | discarded
  /-- `_legacy_model_identity` returns, or raises. -/
  | identify (ok : Bool)
  | stream (a : Act)

inductive Label where
  /-- The policies change. -/
  | policies (p : String → Option (List Member))
  | arrive
  | request (r : ℕ) (op : Op)

/-- What the request waits for. -/
def ready (q : Request) : Op → Bool
  | .refuse => q.phase = .selecting
  | .route _ _ _ _ => q.phase = .selecting
  | .activate _ => q.phase = .calling || q.pulling
  | .settle => q.phase = .calling
  | .hand p => q.phase = .calling && decide (p = .legacy) == q.legacy
  | .handOff | .abandon =>
    match q.phase with
    | .dispatched _ => true
    | _ => false
  | .discarded => q.phase = .discarding && q.tower.head?.all Frame.isOver
  | .identify _ => q.phase = .identifying
  | .stream a =>
    match q.phase with
    | .dispatched _ => false
    | _ => q.allows a

/-- The effect of one act on the streams of a request. -/
def State.unwind (s : State) (r : ℕ) (q : Request) (a : Act) : State :=
  let s := if q.unwinds .observed a || q.produced a then s.communityObservationEnd r else s
  if q.unwinds .release a then s.releaseSlot q.slot else s

def apply (s : State) (r : ℕ) (q : Request) : Op → Option State
  | .refuse => some (s.set r { q with phase := .ended })
  | .route model lookup scopes raised =>
    let sel := s.counters.select model lookup
    let q := { q with
      phase := if raised then .ended else .calling
      legacy := sel.deployment.isNone
      slot := sel.slot }
    some (({ s with counters := sel.counters }.communityObservationStart r scopes).set r q)
  | .activate scopes => some (s.communityObservationActivate r scopes)
  | .settle => some (s.settle r q)
  | .hand p =>
    match p with
    | .managed => some (s.set r (q.stream p.result))
    | _ => some (s.set r { q with phase := .dispatched p, tower := p.result })
  | .handOff =>
    let t := fresh .prompt :: q.tower
    match q.phase with
    | .dispatched .legacy => some (s.set r { q with phase := .identifying, tower := t })
    | _ => some (s.set r (q.stream t))
  | .abandon => some (s.set r { q with phase := .discarding })
  | .discarded => some (s.settle r q)
  | .identify ok =>
    if ok then some (s.set r (q.stream (fresh .observe :: q.tower))) else some (s.settle r q)
  | .stream a =>
    (Nested.step Wrapper.mode q.tower a).map fun t => (s.unwind r q a).set r (q.after t a)

def step (s : State) : Label → Option State
  | .policies p => some { s with counters := { s.counters with policies := p } }
  | .arrive => some { s with requests := s.requests ++ [.new] }
  | .request r op =>
    s.requests[r]?.bind fun q => if ready q op then apply s r q op else none

/-! ## The condition -/

/-- A frame that ends without unwinding reads nothing that is open, and its own `finally` had
nothing to do. -/
def Harmless (s : State) (r : ℕ) (q : Request) (a : Act) : Prop :=
  Nested.Orderly Wrapper.mode q.tower a ∧
    (q.tower[a.index]?.all fun f =>
      !Nested.abandons Wrapper.mode f a ||
        f.kind != .release && (f.kind != .observed || r ∉ s.active))

instance (s : State) (r : ℕ) (q : Request) (a : Act) : Decidable (Harmless s r q a) :=
  inferInstanceAs (Decidable (_ ∧ _))

/-- Nothing raises between a reservation and the `try`, nor while the legacy path has an open
stream at hand; no stream is closed or cancelled before its body and its task have begun, and no
cancellation ends a wait for a producer that is still closing its upstream. -/
def CleanOp (s : State) (r : ℕ) (q : Request) : Op → Prop
  | .route _ lookup _ raised => raised → lookup.isEmpty
  | .identify ok => ok = false → ∀ f ∈ q.tower, f.isOver = true
  | .stream a => Harmless s r q a
  | _ => True

instance (s : State) (r : ℕ) (q : Request) : (op : Op) → Decidable (CleanOp s r q op)
  | .route _ l _ raised => inferInstanceAs (Decidable (raised → l.isEmpty))
  | .identify ok => inferInstanceAs (Decidable (ok = false → ∀ f ∈ q.tower, f.isOver = true))
  | .stream a => inferInstanceAs (Decidable (Harmless s r q a))
  | .refuse | .activate _ | .settle | .hand _ | .handOff | .abandon | .discarded => isTrue trivial

def Clean (s : State) : Label → Prop
  | .request r op => ∀ q ∈ s.requests[r]?, CleanOp s r q op
  | _ => True

instance (s : State) : (e : Label) → Decidable (Clean s e)
  | .request r op => inferInstanceAs (Decidable (∀ q ∈ s.requests[r]?, CleanOp s r q op))
  | .policies _ | .arrive => isTrue trivial

/-! ## What must hold -/

/-- The requests that have a slot, by its deployment. -/
def State.holders (s : State) : List String := s.requests.filterMap Request.holds

/-- Nothing leaks: the counters count the requests that have a slot; a slot is released once, when
its request is over; and then its upstream is closed and its observation gone. -/
structure Sound (s : State) : Prop where
  counts : Dict.Counts s.counters.inflight (s.holders : Multiset String)
  released : ∀ (r : ℕ) (q : Request), s.requests[r]? = some q →
    q.releases = if q.isOver then q.reserved else 0
  closed : ∀ (r : ℕ) (q : Request), s.requests[r]? = some q → q.isOver → ∀ f ∈ q.tower, f.isOver
  ended : ∀ (r : ℕ) (q : Request), s.requests[r]? = some q → q.isOver → r ∉ s.active

end SparkDeck.Proxy
