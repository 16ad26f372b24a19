import Mathlib.Data.List.Infix

/-!
# Cluster failures

Model of the exceptions a cluster request meets and of how the manager tells them apart:
`_cluster_failover_retryable`, `_cluster_ride_through_retryable` and
`_cluster_probe_failure_deterministic` (`manager.py:8157-8185`, `:8314-8364`), and of where they
come from: a call of `_vllm_chat` or `_vllm_completions` on the node of an engine, up to the point
where its answer or its stream is accepted (`manager.py:22883-22953`, `:23257-23640`), the agent's
`agent_inference` (`server.py:1636-1680`), `NodeRegistry.request` and `open_stream`
(`cluster.py:482-606`), and one call of `_proxy_cluster_member` (`manager.py:8552-8913`).

What the network, the engines and the agents do in one call is an `Attempt`. `proxyMember` computes
what the manager gets to see of it, and what only an observer of the engines can tell: whether one
can have received the prompt (`delivered`) and with which status the request was turned down
(`refusal`).

Exceptions are data. A class that no test tells from another is not named: `transport` is any
`httpx.TransportError` but the two connect errors, `other` any class without a test of its own. The
texts are those of the code, since the tests read them.
-/

namespace SparkDeck.Cluster

/-! ## Exceptions -/

/-- `needle in text`. -/
def mentions (text needle : String) : Bool := needle.toList <:+: text.toList

/-- `text[:500]`. -/
def cut (text : String) : String := String.ofList (text.toList.take 500)

/-- The zeros of the decimal digits (category `Nd`), each the first of ten. -/
def decimalZeros : List ℕ :=
  [0x30, 0x660, 0x6F0, 0x7C0, 0x966, 0x9E6, 0xA66, 0xAE6, 0xB66, 0xBE6, 0xC66, 0xCE6, 0xD66, 0xDE6,
    0xE50, 0xED0, 0xF20, 0x1040, 0x1090, 0x17E0, 0x1810, 0x1946, 0x19D0, 0x1A80, 0x1A90, 0x1B50,
    0x1BB0, 0x1C40, 0x1C50, 0xA620, 0xA8D0, 0xA900, 0xA9D0, 0xA9F0, 0xAA50, 0xABF0, 0xFF10, 0x104A0,
    0x10D30, 0x11066, 0x110F0, 0x11136, 0x111D0, 0x112F0, 0x11450, 0x114D0, 0x11650, 0x116C0,
    0x11730, 0x118E0, 0x11950, 0x11C50, 0x11D50, 0x11DA0, 0x11F50, 0x16A60, 0x16AC0, 0x16B50,
    0x1D7CE, 0x1D7D8, 0x1D7E2, 0x1D7EC, 0x1D7F6, 0x1E140, 0x1E2F0, 0x1E4F0, 0x1E950, 0x1FBF0]

/-- `\d` of a `str` pattern. -/
def isDecimal (c : Char) : Bool := decimalZeros.any fun z => z ≤ c.toNat && c.toNat < z + 10

/-- `re.search(r"HTTP 5\d\d", text)`. -/
def mentionsServerError (text : String) : Bool :=
  text.toList.tails.any fun t =>
    "HTTP 5".toList.isPrefixOf t &&
      match t.drop 6 with
      | a :: b :: _ => isDecimal a && isDecimal b
      | _ => false

inductive Exn where
  | clientAbort (message : String)
  /-- `ClusterReplicaUnavailable`. -/
  | replicaUnavailable (message : String)
  /-- `SourceRoutingUnavailable`. -/
  | sourceRouting (message : String)
  /-- `NodeAgentResponseError`. -/
  | agentResponse (node : String) (status : ℕ) (detail : String)
  /-- `httpx.HTTPStatusError`, with the text of its response. -/
  | httpStatus (status : ℕ) (message text : String)
  /-- `httpx.ConnectError` or `httpx.ConnectTimeout`. -/
  | connect (message : String)
  | transport (message : String)
  | lookup (message : String)
  | timeout (message : String)
  | runtime (message : String)
  | value (message : String)
  | other (message : String)
  deriving DecidableEq

/-- `str(exc)`. -/
def Exn.message : Exn → String
  | .agentResponse node status detail =>
    node ++ " agent error: HTTP " ++ toString status ++ ": " ++ detail
  | .clientAbort m | .replicaUnavailable m | .sourceRouting m | .httpStatus _ m _ | .connect m
  | .transport m | .lookup m | .timeout m | .runtime m | .value m | .other m => m

/-- An exception as it is raised, with its `__cause__`. -/
structure Raised where
  exn : Exn
  cause : Option Exn
  deriving DecidableEq

/-- `raise exn`. -/
def Exn.raised (e : Exn) : Raised := ⟨e, none⟩

/-- `_cluster_failover_retryable`. -/
def failoverRetryable (e : Exn) : Bool :=
  match e with
  | .replicaUnavailable _ | .connect _ | .transport _ | .lookup _ | .timeout _ => true
  | .httpStatus status _ _ => 500 ≤ status
  | .agentResponse .. | .sourceRouting _ | .runtime _ | .value _ =>
    mentions e.message "could not contact" || mentions e.message "no connectable endpoints" ||
      mentions e.message "remote node not found" || mentions e.message "is disabled" ||
      mentions e.message "replica_unavailable" || mentionsServerError e.message
  | .clientAbort _ | .other _ => false

/-- The agent says that the member's container is missing. -/
def missingReplica : Exn → Bool
  | .agentResponse _ status detail => status == 404 && mentions detail "replica_unavailable"
  | _ => false

/-- `_cluster_probe_failure_deterministic`. -/
def probeFailureDeterministic (e : Exn) : Bool :=
  match e with
  | .value m | .lookup m => mentions m "is disabled" || mentions m "remote node not found"
  | .agentResponse _ status _ =>
    status < 500 && status != 408 && status != 429 && !missingReplica e
  | _ => false

/-- `isinstance(exc, connect_errors)`. -/
def isConnect : Exn → Bool
  | .connect _ => true
  | _ => false

/-- `_cluster_ride_through_retryable`. -/
def rideThroughRetryable (r : Raised) : Bool :=
  match r.exn with
  | .replicaUnavailable _ => !r.cause.any probeFailureDeterministic
  | e => isConnect e || r.cause.any isConnect || missingReplica e

/-! ## Where they come from -/

/-- What comes of a call of a member, or of a part of it. -/
structure Outcome where
  /-- An engine can have received the prompt. -/
  delivered : Bool
  /-- The status with which the request, not the probe, was turned down. A typed
  `replica_unavailable` of an agent is none: that agent called no engine. -/
  refusal : Option ℕ
  /-- What the caller gets; `none` when the answer or the stream is accepted. -/
  raised : Option Raised

/-- The request itself is answered with a client error. -/
def Outcome.clientError (o : Outcome) : Bool :=
  o.refusal.any fun status => 400 ≤ status && status < 500

/-- One exchange of a node with its engine. -/
inductive Exchange where
  /-- The connection is refused, or not made in time. -/
  | refused (message : String)
  /-- Any other transport error. -/
  | broken (message : String)
  /-- A status that `raise_for_status` does not let through; `message` is what it raises with. -/
  | rejected (status : ℕ) (message text : String)
  /-- The body of an answer is not JSON. -/
  | garbled (message : String)
  | accepted

/-- Why `_vllm_stream_events` makes another exchange before its stream is ready. -/
inductive Interruption where
  /-- A nudge while the response headers are awaited; the replay is admitted again, or that
  raises. -/
  | nudged (again : Option Exn)
  /-- An HTTP 400, on which an extension of the body is dropped. -/
  | badRequest (message text : String)

/-- A call of `_vllm_chat` or `_vllm_completions`. -/
structure Call where
  /-- What resolving the target and admission raise. -/
  resolve : Option Exn
  /-- Of a stream: the exchanges before the last one. -/
  interrupted : List Interruption
  last : Exchange

/-- The last exchange, when an engine can have been reached before it. -/
def Exchange.outcome (before streaming : Bool) : Exchange → Outcome
  | .refused m => ⟨before, none, some (Exn.connect m).raised⟩
  | .broken m => ⟨true, none, some (Exn.transport m).raised⟩
  | .rejected status m text => ⟨true, some status, some (Exn.httpStatus status m text).raised⟩
  | .garbled m => ⟨true, none, if streaming then none else some (Exn.value m).raised⟩
  | .accepted => ⟨true, none, none⟩

/-- The loop of `_vllm_stream_events` up to its `_STREAM_READY`. Two extensions can be dropped; a
further HTTP 400 is raised. -/
def streamEvents (last : Exchange) : ℕ → Bool → List Interruption → Outcome
  | _, before, [] => last.outcome before true
  | _, _, .nudged (some e) :: _ => ⟨true, none, some e.raised⟩
  | dropped, _, .nudged none :: rest => streamEvents last dropped true rest
  | dropped, _, .badRequest m text :: rest =>
    if dropped < 2 then streamEvents last (dropped + 1) true rest
    else ⟨true, some 400, some (Exn.httpStatus 400 m text).raised⟩

def Call.outcome (streaming : Bool) (c : Call) : Outcome :=
  match c.resolve with
  | some e => ⟨false, none, some e.raised⟩
  | none => if streaming then streamEvents c.last 0 false c.interrupted
    else c.last.outcome false false

/-- The body of an agent's answer. -/
inductive Detail where
  /-- `{"detail": {"type": .., "message": ..}}`. -/
  | typed (type message : String)
  | plain (text : String)

/-- A character inside a JSON string. -/
def jsonChar (c : Char) : List Char :=
  let hex (n : ℕ) : Char := Char.ofNat (if n < 10 then 48 + n else 87 + n)
  if c.toNat = 34 ∨ c.toNat = 92 then [Char.ofNat 92, c]
  else if c.toNat = 10 then "\\n".toList
  else if c.toNat = 13 then "\\r".toList
  else if c.toNat = 9 then "\\t".toList
  else if c.toNat = 8 then "\\b".toList
  else if c.toNat = 12 then "\\f".toList
  else if c.toNat < 32 then "\\u00".toList ++ [hex (c.toNat / 16), hex (c.toNat % 16)]
  else [c]

def jsonString (s : String) : String :=
  "\"" ++ String.ofList (s.toList.flatMap jsonChar) ++ "\""

/-- `response.text`. -/
def Detail.text : Detail → String
  | .typed type message =>
    "\x7b\"detail\":\x7b\"type\":" ++ jsonString type ++ ",\"message\":" ++ jsonString message ++
      "\x7d\x7d"
  | .plain text => text

/-- `_remote_agent_error_type`. -/
def Detail.errorType : Detail → Option String
  | .typed type _ => if type = "" then none else some type
  | .plain _ => none

/-- The status and the body with which `agent_inference` answers an exception of its call. -/
def agentAnswer : Exn → ℕ × Detail
  | .clientAbort _ => (499, .plain "")
  | .lookup m => (404, .typed "replica_unavailable" m)
  | .httpStatus status _ text => (status, .typed "upstream_error" (cut text))
  | _ => (500, .plain "Internal Server Error")

/-- One endpoint of an agent, tried by the registry. -/
inductive Wire where
  | refused (message : String)
  | broken (message : String)
  /-- The agent turns the request down before it calls an engine. -/
  | denied (status : ℕ) (detail : Detail)
  | called (c : Call)

/-- A node as the registry has it. -/
inductive Node where
  | missing
  | disabled (name : String)
  | listed (name : String) (targets : List Wire)

/-- How an answer of an agent that is not a success reaches the caller: `NodeRegistry.request`
raises its own error, and behind `open_stream` `_proxy_cluster_member_unlimited` reads the type. -/
def refuse (streaming : Bool) (name : String) (status : ℕ) (d : Detail) : Raised :=
  if streaming then
    if status = 404 ∧ d.errorType = some "replica_unavailable" then
      (Exn.replicaUnavailable ("remote replica is unavailable: " ++ cut d.text)).raised
    else
      (Exn.httpStatus status
        ("remote inference failed: HTTP " ++ toString status ++ ": " ++ cut d.text) d.text).raised
  else
    ⟨.agentResponse name status (cut d.text), some (.httpStatus status "" d.text)⟩

def answered (streaming : Bool) (name : String) (delivered : Bool) (a : ℕ × Detail) : Outcome :=
  ⟨delivered, if a.1 = 404 ∧ a.2.errorType = some "replica_unavailable" then none else some a.1,
    some (refuse streaming name a.1 a.2)⟩

/-- The endpoints of an agent, one after another while the connection is refused. -/
def dial (streaming : Bool) (name : String) : Option String → List Wire → Outcome
  | none, [] =>
    ⟨false, none, some (Exn.runtime (if streaming then
      "could not contact " ++ name ++ ": no connectable endpoints"
      else name ++ " agent has no connectable endpoints")).raised⟩
  | some m, [] =>
    ⟨false, none, some ⟨.runtime ("could not contact " ++ name ++ ": " ++ m), some (.connect m)⟩⟩
  | _, .refused m :: rest => dial streaming name (some m) rest
  | _, .broken m :: _ =>
    ⟨true, none, some ⟨.runtime ("could not contact " ++ name ++ ": " ++ m), some (.transport m)⟩⟩
  | _, .denied status d :: _ => answered streaming name false (status, d)
  | _, .called c :: _ =>
    let o := c.outcome streaming
    match o.raised with
    | none => ⟨o.delivered, none, none⟩
    | some r => answered streaming name o.delivered (agentAnswer r.exn)

/-- `NodeRegistry.request` and `open_stream`. -/
def Node.outcome (streaming : Bool) : Node → Outcome
  | .missing => ⟨false, none, some (Exn.value "remote node not found").raised⟩
  | .disabled name =>
    ⟨false, none, some (Exn.value ("node " ++ name ++ " is disabled")).raised⟩
  | .listed name targets => dial streaming name none targets

/-! ## One call of a member -/

/-- How a call of a member comes to its readiness probe. -/
inductive Entry where
  | fine
  /-- The client is gone while the call waits at the prompt gate. -/
  | aborted
  /-- The member's record changed while the call waited. -/
  | changed
  | stopped
  | groupStopped

/-- The readiness probe. -/
inductive Probe where
  | serving
  | silent
  | raised (e : Exn)

/-- Where the engine is. -/
inductive Place where
  | here (c : Call)
  /-- On another node; `slot` is what `_acquire_inference_slot` raises. -/
  | there (slot : Option Exn) (n : Node)
  /-- The client leaves while the call is out, wherever. -/
  | left

structure Attempt where
  entry : Entry
  probe : Probe
  place : Place

/-- Nothing has been sent. -/
def Raised.unsent (r : Raised) : Outcome := ⟨false, none, some r⟩

/-- `_cluster_member_serving`, and what is raised when it does not say yes. -/
def Probe.failure : Probe → Option Raised
  | .serving => none
  | .raised (.clientAbort m) => some (Exn.clientAbort m).raised
  | .raised e =>
    if probeFailureDeterministic e then
      some ⟨.replicaUnavailable ("engine readiness check failed: " ++ e.message), some e⟩
    else some notReady
  | .silent => some notReady
where
  notReady : Raised :=
    (Exn.replicaUnavailable ("engine is not ready yet; its health endpoint is not " ++
      "answering, so it cannot take traffic")).raised

/-- `_proxy_cluster_member`. -/
def proxyMember (streaming : Bool) (a : Attempt) : Outcome :=
  match a.entry with
  | .aborted => (Exn.clientAbort "").raised.unsent
  | .changed =>
    (Exn.replicaUnavailable "engine group changed while waiting for prompt processing").raised.unsent
  | .stopped =>
    (Exn.runtime
      "deployment is stopped; start it before sending inference requests").raised.unsent
  | .groupStopped =>
    (Exn.replicaUnavailable
      "engine group is stopped; start it or route to a running group").raised.unsent
  | .fine =>
    match a.probe.failure with
    | some r => r.unsent
    | none =>
      match a.place with
      | .here c => c.outcome streaming
      | .there (some e) _ => e.raised.unsent
      | .there none n => n.outcome streaming
      | .left => ⟨true, none, some (Exn.clientAbort "client disconnected").raised⟩

/-! ## What an outcome says -/

theorem refusal_of_clientError {o : Outcome} (h : o.clientError) : o.refusal ≠ none := by
  intro hnone
  simp [Outcome.clientError, hnone] at h

/-- A call that was turned down did not end with the client leaving. -/
def Outcome.Answered (o : Outcome) : Prop :=
  o.refusal ≠ none → ∀ r, o.raised = some r → ∀ m, r.exn ≠ .clientAbort m

theorem answered_of_none {o : Outcome} (h : o.refusal = none) : o.Answered := fun hne =>
  absurd h hne

theorem Exchange.outcome_answered (before streaming : Bool) (x : Exchange) :
    (x.outcome before streaming).Answered := by
  cases x with
  | rejected status m text =>
    intro _ r hr
    cases hr
    simp [Exn.raised]
  | _ => exact answered_of_none rfl

theorem streamEvents_answered (last : Exchange) (rest : List Interruption) :
    ∀ dropped before, (streamEvents last dropped before rest).Answered := by
  induction rest with
  | nil => exact fun _ before => last.outcome_answered before true
  | cons x rest ih =>
    intro dropped before
    cases x with
    | nudged again =>
      cases again with
      | none => exact ih dropped true
      | some e => exact answered_of_none rfl
    | badRequest m text =>
      rw [streamEvents]
      split
      · exact ih _ true
      · intro _ r hr
        cases hr
        simp [Exn.raised]

theorem refuse_not_abort (streaming : Bool) (name : String) (status : ℕ) (d : Detail) (m : String) :
    (refuse streaming name status d).exn ≠ .clientAbort m := by
  unfold refuse
  split
  · split <;> simp [Exn.raised]
  · simp

theorem answered_answered (streaming : Bool) (name : String) (delivered : Bool) (a : ℕ × Detail) :
    (answered streaming name delivered a).Answered := by
  intro _ r hr m
  cases hr
  exact refuse_not_abort streaming name a.1 a.2 m

theorem dial_answered (streaming : Bool) (name : String) (targets : List Wire) :
    ∀ last, (dial streaming name last targets).Answered := by
  induction targets with
  | nil =>
    intro last
    cases last <;> exact answered_of_none rfl
  | cons x targets ih =>
    intro last
    cases x with
    | refused m => simpa only [dial] using ih (some m)
    | broken m => simpa only [dial] using answered_of_none rfl
    | denied status d => simpa only [dial] using answered_answered streaming name false (status, d)
    | called c =>
      simp only [dial]
      split
      · exact answered_of_none rfl
      · exact answered_answered streaming name _ _

theorem proxyMember_refusal {streaming : Bool} {a : Attempt} :
    (proxyMember streaming a).Answered := by
  unfold proxyMember
  split
  case h_5 =>
    split
    · exact answered_of_none rfl
    · split
      case h_1 c _ =>
        unfold Call.outcome
        split
        · exact answered_of_none rfl
        · split
          · exact streamEvents_answered _ _ _ _
          · exact c.last.outcome_answered false false
      case h_2 | h_4 => exact answered_of_none rfl
      case h_3 n _ =>
        cases n with
        | listed name targets => exact dial_answered streaming name targets none
        | _ => exact answered_of_none rfl
  all_goals exact answered_of_none rfl

end SparkDeck.Cluster
