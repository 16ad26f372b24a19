import Mathlib.Data.Rat.Lemmas
import SparkDeck.Lib.Transition

/-!
# Status snapshots of a node

Model of the status side of `NodeRegistry` (`cluster.py`) for one node: `probe`, `_reusable_probe`,
`_start_probe`, `_ensure_probe`, `_forget_probe`, `_probe_now`, `invalidate_status`, `pair_remote`,
`update` and `remove`. What is between two awaits is one step.

* The registry holds a node as a dict that `update` writes in place and `pair_remote` replaces;
  `dicts` are all the dicts the node has had, and `current` is the one in `registry.nodes`. A caller
  of `probe` hands one in, which may be an old one.
* A task runs `_probe_now`, an `Attempt`, until an HTTP await, whose response is the label's. An
  attempt that finds the generation moved on starts over with the dict it was given.
* `pair_remote` is its last step, after the agent has answered. `saved` says that `_save` did not
  raise: where it does, the dict is changed already, and the call does not return. Likewise an
  `agent_url` that cannot be normalized, after the other fields are written. A call that raises
  before it changes anything is no step.
* `str.strip` is a parameter. `latency_ms` is left out; so are the fields of a node that no snapshot
  has and those of an agent that `_probe_now` does not look at.
* `epoch`, `changes`, `recent`, `returned`, and what a snapshot was read from (`oldest`) are for the
  statements: the settled calls, those of them that change the node, the public fields the registry
  has held since the last settled call, and what `probe` has returned to whom.
-/

namespace SparkDeck.NodeStatus

/-! ## Data -/

/-- The public fields of a node. -/
structure Config where
  name : Option String
  agentUrl : String
  fabricIp : Option String
  fabricInterface : Option String
  enabled : Bool
  hidden : Bool
  deriving DecidableEq

/-- What an agent says of itself. -/
structure Reading where
  protocol : Option ℕ
  dockerReady : Option Bool
  name : Option String
  message : Option String

/-- `{**a, **b}`. -/
def Reading.over (a b : Reading) : Reading :=
  ⟨b.protocol.or a.protocol, b.dockerReady.or a.dockerReady, b.name.or a.name,
    b.message.or a.message⟩

inductive Status where
  | online
  | degraded
  | unreachable
  | disabled

structure Snapshot where
  report : Config
  status : Status
  reading : Reading
  message : Option String
  lastSeen : Option ℚ
  /-- The settled calls before the oldest reading that it has a part of. -/
  oldest : ℕ

/-- `entry.get("online") is False`. -/
def Snapshot.negative (x : Snapshot) : Bool :=
  match x.status with
  | .unreachable | .disabled => true
  | .online | .degraded => false

/-- The fields of a cached snapshot under the names that an agent uses. -/
def Snapshot.asReading (x : Snapshot) : Reading :=
  ⟨x.reading.protocol, x.reading.dockerReady, x.report.name, x.message⟩

structure Clock where
  monotonic : ℚ
  wall : ℚ

inductive Response where
  | ok (status : Reading)
  /-- The agent has no such endpoint. -/
  | missing (text : String)
  | failed (text : String)

/-- The HTTP request an attempt awaits. -/
inductive Stage where
  /-- `GET /api/agent/health` -/
  | health
  /-- `GET /api/agent/status` of an older agent. -/
  | fallback
  /-- `GET /api/agent/status` for the details. -/
  | telemetry (status : Reading) (issues : List String)
  /-- `PATCH /api/agent/node`; `carried` says that `status` goes on from the cached snapshot. -/
  | naming (status : Reading) (carried : Bool) (issues : List String)

/-- A run of `_probe_now`. -/
structure Attempt where
  node : ℕ
  details : Bool
  generation : ℕ
  cached : Option Snapshot
  config : Config
  stage : Stage
  born : ℕ
  changes : ℕ

inductive Task where
  /-- It has not run yet. -/
  | created (node : ℕ) (details : Bool)
  | running (a : Attempt)
  /-- It returned a snapshot, or was cancelled. -/
  | done (result : Option Snapshot)

/-- A caller of `probe` that awaits a task. -/
structure Call where
  task : ℕ
  epoch : ℕ

structure State where
  current : Option ℕ
  dicts : List Config
  /-- `_status_cache` -/
  cache : Option (ℚ × Snapshot)
  /-- `_status_generations` -/
  generation : ℕ
  /-- `_probe_inflight` -/
  inflight : Option (ℕ × Bool)
  tasks : List Task
  calls : List Call
  returned : List (ℕ × Snapshot)
  epoch : ℕ
  changes : ℕ
  recent : List Config

def ttl : ℚ := 4

def negativeTtl : ℚ := 60

def protocolVersion : ℕ := 2

/-! ## An attempt -/

section Attempts

variable (strip : String → String)

/-- Where an attempt goes: to another await, or to its result. -/
inductive Progress where
  | waits (a : Attempt)
  | finds (x : Snapshot)

def dockerIssue (status : Reading) : List String :=
  if status.dockerReady = some false then
    let message := strip (status.message.getD "")
    [if message = "" then "Docker is unavailable" else message]
  else []

/-- The least of the epochs that an attempt has read in, with the cached snapshot or without. -/
def Attempt.oldest (a : Attempt) (withCached : Bool) : ℕ :=
  match withCached, a.cached with
  | true, some x => min a.born x.oldest
  | _, _ => a.born

def Attempt.unreachable (a : Attempt) (text : String) : Snapshot where
  report := a.config
  status := .unreachable
  reading := ⟨none, none, none, none⟩
  message := some text
  lastSeen := a.cached.bind Snapshot.lastSeen
  oldest := a.oldest true

/-- The registry fields of a carried snapshot stand over the node's own. -/
def Attempt.base (a : Attempt) (carried : Bool) : Config :=
  match carried, a.cached with
  | true, some x => x.report
  | _, _ => a.config

/-- The registry fields of the result: the name and the visibility are the node's own. -/
def Attempt.report (a : Attempt) (status : Reading) (carried : Bool) : Config :=
  { a.base carried with
    name := if a.config.name.getD "" = "" then status.name else a.config.name
    hidden := a.config.hidden }

def Attempt.result (a : Attempt) (status : Reading) (carried : Bool) (issues : List String)
    (wall : ℚ) : Snapshot where
  report := a.report status carried
  status := if issues = [] then .online else .degraded
  reading := status
  message := if issues = [] then none else some ("; ".intercalate issues)
  lastSeen := some wall
  oldest := a.oldest carried

/-- From the details on. -/
def Attempt.detailed (a : Attempt) (status : Reading) (carried : Bool) (issues : List String)
    (wall : ℚ) : Progress :=
  let issues := issues ++ dockerIssue strip status
  let authoritative := strip (a.config.name.getD "")
  if a.details ∧ authoritative ≠ "" ∧ strip (status.name.getD "") ≠ authoritative then
    .waits { a with stage := .naming status carried issues }
  else .finds (a.result status carried issues wall)

/-- From the agent's first answer on. -/
def Attempt.answered (a : Attempt) (status : Reading) (hasDetails : Bool) (wall : ℚ) : Progress :=
  let issues :=
    (if status.protocol = some protocolVersion then [] else ["agent protocol version mismatch"]) ++
      dockerIssue strip status
  if a.details && !hasDetails then .waits { a with stage := .telemetry status issues }
  else a.detailed strip status false issues wall

def Response.text : Response → String
  | .ok _ => ""
  | .missing text => text
  | .failed text => text

def Attempt.advance (a : Attempt) (r : Response) (wall : ℚ) : Progress :=
  match a.stage, r with
  | .health, .ok status => a.answered strip status false wall
  | .health, .missing _ => .waits { a with stage := .fallback }
  | .health, .failed text => .finds (a.unreachable text)
  | .fallback, .ok status => a.answered strip status true wall
  | .fallback, r => .finds (a.unreachable r.text)
  | .telemetry status issues, .ok more => a.detailed strip (status.over more) false issues wall
  | .telemetry status issues, r =>
    let issues := issues ++ ["agent telemetry unavailable: " ++ r.text]
    match a.cached with
    | some x => a.detailed strip (x.asReading.over status) true issues wall
    | none => a.detailed strip status false issues wall
  | .naming status carried issues, .ok _ =>
    .finds (a.result { status with name := some (strip (a.config.name.getD "")) } carried issues
      wall)
  | .naming status carried issues, _ =>
    .finds (a.result status carried (issues ++ ["node name synchronization pending"]) wall)

end Attempts

/-! ## Steps -/

/-- The changes of `update` to the fields that snapshots have; `agentUrl` is `some none` where it
cannot be normalized. -/
structure Change where
  name : Option (Option String)
  fabricIp : Option (Option String)
  fabricInterface : Option (Option String)
  enabled : Option Bool
  hidden : Option Bool
  agentUrl : Option (Option String)

/-- The fields that are written before the address is looked at. -/
def Change.fields (change : Change) (c : Config) : Config :=
  { c with
    name := change.name.getD c.name
    fabricIp := change.fabricIp.getD c.fabricIp
    fabricInterface := change.fabricInterface.getD c.fabricInterface
    enabled := change.enabled.getD c.enabled
    hidden := change.hidden.getD c.hidden }

inductive Label where
  | probe (node : ℕ) (force details allowStale : Bool) (now : ℚ)
  | ensure (node : ℕ) (details : Bool)
  /-- The task first runs. -/
  | begin (task : ℕ) (clock : Clock)
  /-- The HTTP await of the task is over. -/
  | resume (task : ℕ) (r : Response) (clock : Clock)
  | cancel (task : ℕ)
  /-- The done callback. -/
  | forget (task : ℕ)
  /-- A caller gets the result of its task, or its exception. -/
  | deliver (call : ℕ)
  | invalidate
  | update (change : Change) (saved : Bool)
  | remove (saved : Bool)
  | pair (config : Config) (saved : Bool)

namespace State

variable (s : State)

/-- The public fields of the node that the registry holds. -/
def config : Option Config := s.current.bind fun node => s.dicts[node]?

def pending (task : ℕ) : Bool :=
  match s.tasks[task]? with
  | some (.created ..) => true
  | some (.running _) => true
  | _ => false

/-- `_reusable_probe`, with the task. -/
def reusable (details : Bool) : Option ℕ :=
  match s.inflight with
  | some (task, rich) => if s.pending task && (rich || !details) then some task else none
  | none => none

/-- `_start_probe`. -/
def startProbe (node : ℕ) (details : Bool) : State :=
  { s with
    tasks := s.tasks ++ [.created node details]
    inflight := some (s.tasks.length, details) }

/-- `_ensure_probe`. -/
def ensureProbe (node : ℕ) (details : Bool) : State :=
  match s.reusable details with
  | some _ => s
  | none => s.startProbe node details

def wait (task : ℕ) : State := { s with calls := s.calls ++ [⟨task, s.epoch⟩] }

def give (x : Snapshot) : State := { s with returned := s.returned ++ [(s.epoch, x)] }

/-- The end of `probe`: it shares the probe in flight, or starts one. -/
def join (node : ℕ) (force details : Bool) : State :=
  match if force then none else s.reusable details with
  | some task => s.wait task
  | none => (s.startProbe node details).wait s.tasks.length

def probe (node : ℕ) (force details allowStale : Bool) (now : ℚ) : State :=
  match if force then none else s.cache with
  | some (stored, entry) =>
    if now - stored < ttl ∧
        (details = false ∨ entry.reading.dockerReady.isSome = true ∨ entry.negative = true) then
      s.give entry
    else if details ∧ allowStale ∧ entry.negative ∧
        now - stored < negativeTtl then
      (s.ensureProbe node true).give entry
    else s.join node force details
  | none => s.join node force details

/-- The end of `_probe_now`. -/
def publish (task : ℕ) (x : Snapshot) (now : ℚ) : State :=
  { s with cache := some (now, x), tasks := s.tasks.set task (.done (some x)) }

/-- The begin of `_probe_now`: a disabled node has its result at once. -/
def start (task node : ℕ) (details : Bool) (config : Config) (now : ℚ) : State :=
  if config.enabled then
    { s with
      tasks := s.tasks.set task (.running
        ⟨node, details, s.generation, s.cache.map Prod.snd, config, .health, s.epoch,
          s.changes⟩) }
  else
    s.publish task ⟨config, .disabled, ⟨none, none, none, none⟩, none, none, s.epoch⟩ now

/-- The result is published, or the attempt starts over. -/
def finish (task : ℕ) (a : Attempt) (x : Snapshot) (now : ℚ) : State :=
  if a.generation = s.generation then s.publish task x now
  else s.start task a.node a.details (s.dicts.getD a.node a.config) now

/-- A change of the node that is not settled, as its call raises. -/
def unsettled (current : Option ℕ) (dicts : List Config) : State :=
  let s' := { s with current, dicts }
  { s' with recent := s'.config.toList ++ s.recent }

/-- A change of the node whose call returns. -/
def settled (current : Option ℕ) (dicts : List Config) : State :=
  let s' := { s with current, dicts }
  { s' with
    cache := none
    epoch := s.epoch + 1
    changes := s.changes + 1
    recent := s'.config.toList }

def change (saved : Bool) (current : Option ℕ) (dicts : List Config) : State :=
  if saved then s.settled current dicts else s.unsettled current dicts

/-- `invalidate_status`. -/
def invalidate : State :=
  { s with
    cache := none
    generation := s.generation + 1
    epoch := s.epoch + 1
    recent := s.config.toList }

/-- `update` of the dict that the registry holds. -/
def update (node : ℕ) (c : Config) (change : Change) (saved : Bool) : State :=
  let fields := change.fields c
  match change.agentUrl with
  | none => s.change saved s.current (s.dicts.set node fields)
  | some none => s.unsettled s.current (s.dicts.set node fields)
  | some (some url) => s.change saved s.current (s.dicts.set node { fields with agentUrl := url })

end State

variable (strip : String → String)

def step (s : State) : Label → Option State
  | .probe node force details allowStale now =>
    if node < s.dicts.length then some (s.probe node force details allowStale now) else none
  | .ensure node details =>
    if node < s.dicts.length then some (s.ensureProbe node details) else none
  | .begin task clock =>
    match s.tasks[task]? with
    | some (.created node details) =>
      (s.dicts[node]?).map fun c => s.start task node details c clock.monotonic
    | _ => none
  | .resume task r clock =>
    match s.tasks[task]? with
    | some (.running a) =>
      match a.advance strip r clock.wall with
      | .waits a' => some { s with tasks := s.tasks.set task (.running a') }
      | .finds x => some (s.finish task a x clock.monotonic)
    | _ => none
  | .cancel task =>
    if s.pending task then some { s with tasks := s.tasks.set task (.done none) } else none
  | .forget task =>
    if s.pending task then none
    else
      match s.inflight with
      | some (t, _) => some (if t = task then { s with inflight := none } else s)
      | none => some s
  | .deliver call =>
    match s.calls[call]? with
    | some c =>
      match s.tasks[c.task]? with
      | some (.done result) =>
        let s' := { s with calls := s.calls.eraseIdx call }
        some { s' with returned := s.returned ++ (result.map fun x => (c.epoch, x)).toList }
      | _ => none
    | none => none
  | .invalidate => some s.invalidate
  | .update change saved =>
    match s.current, s.config with
    | some node, some c => some (s.update node c change saved)
    | _, _ => none
  | .remove saved =>
    match s.current with
    | some _ => some (s.change saved none s.dicts)
    | none => none
  | .pair config saved =>
    some (s.change saved (some s.dicts.length) (s.dicts ++ [config]))

/-- A registry that has loaded a node, or none. -/
def init (node : Option Config) : State :=
  ⟨node.map fun _ => 0, node.toList, none, 0, none, [], [], [], 0, 0, node.toList⟩

end SparkDeck.NodeStatus
