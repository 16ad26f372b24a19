import SparkDeck.Cluster.Failure
import SparkDeck.Cluster.Route
import Mathlib.Algebra.Order.Ring.Rat

/-!
# One cluster request

Model of `proxy_cluster_inference`, `_proxy_cluster_inference_once` and the relay of
`_cluster_stream_with_failover` (`manager.py:8187-8305`, `:8366-8550`) as one state machine: an
`Inquiry` is the request between two awaits, with what its client has been given so far.

A step is a label: what the awaited thing does and what the code reads after it (the clock, whether
the client is gone). The deterministic code up to the next await is the step function. One call of
`_proxy_cluster_member` is an `Attempt`, its result `proxyMember`.

History, for an observer: the passes with what they tried and whether an engine can have received
the prompt, the request's last refusal with a client error, and how the serving replica's stream
ended.
-/

namespace SparkDeck.Cluster

/-- A chunk of a replica's stream, as the relay reads it. -/
inductive Chunk where
  | empty
  /-- An SSE event with an error of type `upstream_error`, and its `code` if that is a number. -/
  | upstreamError (code : Option ℤ) (message : String)
  | event (text : String)
  deriving DecidableEq

/-- `_upstream_stream_error`. -/
def Chunk.upstreamStreamError : Chunk → Option (Option ℤ × String)
  | .upstreamError code message => some (code, message)
  | .empty | .event _ => none

/-- What the relay gives its consumer. -/
inductive Out where
  /-- A chunk of candidate `i`. -/
  | chunk (i : ℕ) (c : Chunk)
  /-- `_cluster_error_event`. -/
  | error (message : String) (code : Option ℕ)
  /-- `data: [DONE]`. -/
  | done

/-- `_cluster_error_event`. -/
def clusterErrorEvent (e : Exn) : Out :=
  match e with
  | .httpStatus status m _ => .error m (some status)
  | e => .error e.message none

inductive Phase where
  /-- About to look the deployment up. -/
  | starting
  /-- In a pass, awaiting candidate `i`. -/
  | trying (i : ℕ)
  /-- In `_cluster_ride_through_pause`, until `wake`. -/
  | pausing (wake : ℚ)
  | raised (r : Raised)
  | replied
  /-- The relay is out and awaits the first chunk of candidate `i`. -/
  | priming (i : ℕ)
  /-- The relay awaits `_proxy_cluster_member` of candidate `i`. -/
  | redialing (i : ℕ)
  /-- The relay forwards candidate `i`. -/
  | committed (i : ℕ)
  /-- The relay is through: returned, or raised. -/
  | ended (r : Option Raised)
  /-- The client has gone. -/
  | left
  deriving DecidableEq

/-- History of one pass. -/
structure Round (M : Type*) where
  route : Route M
  tried : List M
  delivered : Bool

/-- How the request was turned down with a client error. -/
inductive Refusal where
  | failed (r : Raised)
  | event (i : ℕ) (c : Chunk)

structure Inquiry (M : Type*) where
  streaming : Bool
  /-- `source_route is not None`. -/
  routed : Bool
  /-- A window was configured: the passes themselves see the deadline. -/
  bounded : Bool
  deadline : ℚ
  /-- `time.monotonic()` when last read. -/
  now : ℚ
  pause : ℚ
  unsafeToReplay : Bool
  /-- The candidates of the current pass. -/
  candidates : List M
  phase : Phase
  /-- `failure` of the relay. -/
  failure : Option Exn
  /-- `terminal_chunk`, with the candidate it is from. -/
  terminal : Option (ℕ × Chunk)
  out : List Out
  /-- History. -/
  rounds : List (Round M)
  /-- History. -/
  refusal : Option Refusal
  /-- History: the candidate whose output is forwarded. -/
  serving : Option ℕ
  /-- History: how the forwarded stream ended. -/
  own : Option (Option Raised)

namespace Inquiry

variable {M : Type*}

/-- `_CLUSTER_RIDE_THROUGH_FIRST_PAUSE`, `_CLUSTER_RIDE_THROUGH_MAX_PAUSE`. -/
def firstPause : ℚ := 1 / 2

def maxPause : ℚ := 2

/-- The request at its start. -/
def init (streaming routed : Bool) (window now : ℚ) : Inquiry M where
  streaming := streaming
  routed := routed
  bounded := 0 < max 0 window
  deadline := now + max 0 window
  now := now
  pause := firstPause
  unsafeToReplay := false
  candidates := []
  phase := .starting
  failure := none
  terminal := none
  out := []
  rounds := []
  refusal := none
  serving := none
  own := none

variable (s : Inquiry M)

/-- The `except` of the ride-through loop. -/
def surface (gone : Bool) (r : Raised) : Inquiry M :=
  let remaining := s.deadline - s.now
  if s.routed ∨ remaining ≤ 0 ∨ gone ∨ rideThroughRetryable r = false ∨ s.unsafeToReplay then
    { s with phase := .raised r }
  else
    { s with phase := .pausing (s.now + min s.pause remaining), pause := min (s.pause * 2) maxPause }

/-- History: candidate `i` is tried. -/
def note (i : ℕ) : List (Round M) :=
  match s.rounds.getLast?, s.candidates[i]? with
  | some p, some m => s.rounds.dropLast ++ [{ p with tried := p.tried ++ [m] }]
  | _, _ => s.rounds

/-- History: what came of the call of a candidate. -/
def record (o : Outcome) : Inquiry M :=
  { s with
    rounds :=
      match s.rounds.getLast? with
      | some p => s.rounds.dropLast ++ [{ p with delivered := p.delivered || o.delivered }]
      | none => s.rounds
    refusal :=
      match o.raised with
      | some r => if o.clientError then some (.failed r) else s.refusal
      | none => s.refusal }

/-- The body of the loop over the candidates, up to the call of candidate `i`. -/
def visit (i : ℕ) (gone : Bool) : Inquiry M :=
  if gone then
    s.surface gone (Exn.clientAbort "client disconnected while the deployment was unavailable").raised
  else if s.bounded ∧ i ≠ 0 ∧ s.deadline ≤ s.now then
    s.surface gone
      (Exn.replicaUnavailable "no member became ready within the ride-through window").raised
  else { s with phase := .trying i, rounds := s.note i }

/-- What a pass finds of the deployment. -/
inductive Lookup (M : Type*) where
  | missing
  | stopped
  /-- The target of a source route is unavailable. -/
  | unroutable (message : String)
  | found (r : Route M)

/-- `_proxy_cluster_inference_once` up to its first candidate. -/
def begin (l : Lookup M) (gone : Bool) : Inquiry M :=
  let unavailable :=
    (Exn.sourceRouting "source-IP routing target deployment is unavailable").raised
  match l with
  | .missing =>
    s.surface gone (if s.routed then unavailable
      else (Exn.lookup "cluster deployment not found").raised)
  | .stopped =>
    s.surface gone (if s.routed then unavailable
      else (Exn.runtime
        "deployment is stopped; start it before sending inference requests").raised)
  | .unroutable m => s.surface gone (Exn.sourceRouting m).raised
  | .found r =>
    if r.order = [] then
      s.surface gone (Exn.lookup "cluster deployment has no inference member").raised
    else
      { s with candidates := r.order, rounds := s.rounds ++ [Round.mk r [] false] }.visit 0 gone

/-- `pass_state["unsafe_to_replay"]`, after a candidate raised. -/
def mark (r : Raised) : Inquiry M :=
  { s with unsafeToReplay := s.unsafeToReplay || !rideThroughRetryable r }

/-- The `except` of the loop over the candidates, after that. -/
def except (i : ℕ) (gone : Bool) (r : Raised) : Inquiry M :=
  if s.routed ∧ failoverRetryable r.exn then
    s.surface gone (Raised.mk
      (.sourceRouting ("source-IP routing target is unavailable: " ++ r.exn.message)) (some r.exn))
  else if i + 1 = s.candidates.length ∨ failoverRetryable r.exn = false then s.surface gone r
  else s.visit (i + 1) gone

/-- The answer or the stream is returned. -/
def serve (i : ℕ) : Inquiry M :=
  if s.streaming then { s with phase := .priming i } else { s with phase := .replied }

/-- `_proxy_cluster_member` of candidate `i` is through. -/
def attempted (i : ℕ) (o : Outcome) (gone : Bool) : Inquiry M :=
  match o.raised with
  | none => (s.record o).serve i
  | some r =>
    match r.exn with
    | .clientAbort _ => (s.record o).surface gone r
    | _ => ((s.record o).mark r).except i gone r

/-! ## The relay -/

/-- The relay yields its last chunks and returns. -/
def conclude (last : Option Out) : Inquiry M :=
  { s with out := s.out ++ last.toList ++ [.done], phase := .ended none }

/-- The relay goes on with the candidate after `i`, without a current stream. -/
def advance (i : ℕ) : Inquiry M :=
  if i + 1 < s.candidates.length then
    { s with phase := .redialing (i + 1), rounds := s.note (i + 1) }
  else
    s.conclude
      (match s.terminal with
      | some (j, c) => some (.chunk j c)
      | none => s.failure.map clusterErrorEvent)

/-- The `except` clauses of the relay, for candidate `i`. -/
def fail (i : ℕ) (r : Raised) : Inquiry M :=
  match r.exn with
  | .clientAbort _ => { s with phase := .left }
  | e =>
    if failoverRetryable e then { s with failure := some e }.advance i
    else { s with failure := some e }.conclude (some (clusterErrorEvent e))

/-- `_proxy_cluster_member` of candidate `i` is through, in the relay. -/
def redialed (i : ℕ) (o : Outcome) : Inquiry M :=
  match o.raised with
  | none => { s.record o with phase := .priming i }
  | some r => (s.record o).fail i r

/-- What `_prime_cluster_stream` comes to. -/
inductive First where
  | chunk (c : Chunk)
  | ended
  | raised (r : Raised)

/-- The current stream is given up for `failure`, and closed; `close` is what closing it raises. -/
def discard (i : ℕ) (failure : Exn) (close : Option Raised) : Inquiry M :=
  match close with
  | some r => { s with failure := some failure, phase := .ended (some r) }
  | none => { s with failure := some failure }.advance i

/-- The first chunk is forwarded. -/
def commit (i : ℕ) (c : Chunk) : Inquiry M :=
  { s with phase := .committed i, out := s.out ++ [.chunk i c], serving := some i }

/-- The priming of candidate `i` is through. A generator that raised or is exhausted is closed
already. -/
def primed (i : ℕ) (f : First) (close : Option Raised) : Inquiry M :=
  let silent := Exn.replicaUnavailable "replica stream ended before its first event"
  match f with
  | .raised r => s.fail i r
  | .ended => s.discard i silent none
  | .chunk c =>
    if c = .empty then s.discard i silent close
    else
      match c.upstreamStreamError with
      | none => s.commit i c
      | some (none, m) =>
        { s with terminal := some (i, c) }.discard i (.replicaUnavailable m) close
      | some (some code, m) =>
        if 500 ≤ code then
          { s with terminal := some (i, c) }.discard i (.replicaUnavailable m) close
        else if 400 ≤ code then { s with refusal := some (.event i c) }.commit i c
        else s.commit i c

inductive Label (M : Type*) where
  /-- A pass begins. -/
  | begin (l : Lookup M) (now : ℚ) (gone : Bool)
  | attempt (a : Attempt) (now : ℚ) (gone : Bool)
  /-- The pause is over, or the client is gone. -/
  | wake (now : ℚ) (gone : Bool)
  | first (f : First) (close : Option Raised)
  /-- One more chunk of the forwarded stream. -/
  | more (c : Chunk)
  /-- The forwarded stream is exhausted, or raises. -/
  | finish (r : Option Raised)
  /-- The client leaves, or the task is cancelled. -/
  | leave

def step (s : Inquiry M) : Label M → Option (Inquiry M)
  | .begin l now gone =>
    if s.phase = .starting ∧ s.now ≤ now then some ({ s with now := now }.begin l gone) else none
  | .attempt a now gone =>
    if s.now ≤ now then
      let o := proxyMember s.streaming a
      match s.phase with
      | .trying i => some ({ s with now := now }.attempted i o gone)
      | .redialing i => some ({ s with now := now }.redialed i o)
      | _ => none
    else none
  | .wake now gone =>
    match s.phase with
    | .pausing wake =>
      if gone then
        some { s with phase := .raised (Exn.clientAbort
          "client disconnected while the deployment was unavailable").raised }
      else if s.now ≤ now ∧ wake ≤ now then some { s with now := now, phase := .starting }
      else none
    | _ => none
  | .first f close =>
    match s.phase with
    | .priming i => some (s.primed i f close)
    | _ => none
  | .more c =>
    match s.phase with
    | .committed i => some { s with out := s.out ++ [.chunk i c] }
    | _ => none
  | .finish r =>
    match s.phase with
    | .committed _ => some { s with phase := .ended r, own := some r }
    | _ => none
  | .leave =>
    match s.phase with
    | .raised _ | .replied | .ended _ | .left => none
    | _ => some { s with phase := .left }

end Inquiry

end SparkDeck.Cluster
