import Mathlib.Data.List.MinMax
import Mathlib.Data.Prod.Lex
import Mathlib.Data.String.Basic
import SparkDeck.Lib.Latch
import SparkDeck.Lib.Spread

/-!
# Selecting an owner of a shared model id

Model of `_reserve_policy_slot`, `_select_routed_member`, `_select_balanced_shared_owner`,
`_release_routing_slot` and `_balanced_owner_sort_key` (`sparkdeck/service.py`).

* The id of a candidate is `str(candidate.get("id") or "")`. `fromIso` is
  `datetime.fromisoformat(value.strip().replace("Z", "+00:00")).timestamp()`, none where it raises.
* A deployment that is not in `_model_routing_inflight` has 0 there: `_release_routing_slot` takes
  an entry out instead of storing a 0.
* `step` runs the calls one after the other. `slots` are the reservations that are held; a release
  gives back one of them.
-/

namespace SparkDeck.Routing

open Spread

inductive Stamp where
  | null
  | bool (b : Bool)
  | number (x : ℚ)
  | text (s : String)
  | other
  deriving DecidableEq

structure Candidate where
  id : String
  lastDeployedAt : Stamp
  createdAt : Stamp
  deriving DecidableEq

structure PolicyMember where
  deploymentId : String
  maxConcurrency : Option ℕ

/-- What a service routes by: its policies, and how it reads a timestamp. -/
structure Config where
  policies : String → Option (List PolicyMember)
  fromIso : String → Option ℚ

/-- An entry of `_model_routing_rotation`. -/
structure Turn where
  order : List String
  cursor : ℕ

structure State where
  /-- `_model_routing_inflight` -/
  inflight : String → ℕ
  /-- `_model_routing_rotation` -/
  rotation : String → Option Turn

def idle : State := ⟨fun _ => 0, fun _ => none⟩

/-! ## The ranking -/

/-- `_selector_owner_timestamp` -/
def selectorOwnerTimestamp (cfg : Config) : Stamp → Option ℚ
  | .number x => some x
  | .text s => cfg.fromIso s
  | .null | .bool _ | .other => none

/-- The timestamp of `_balanced_owner_sort_key`. -/
def balancedOwnerStamp (cfg : Config) (c : Candidate) : ℚ :=
  match selectorOwnerTimestamp cfg c.lastDeployedAt with
  | some stamp => stamp
  | none => (selectorOwnerTimestamp cfg c.createdAt).getD 0

/-- `_balanced_owner_sort_key` -/
def balancedOwnerSortKey (cfg : Config) (c : Candidate) : ℚ ×ₗ String :=
  toLex (balancedOwnerStamp cfg c, c.id)

/-- `sorted(candidates, key=..., reverse=True)` -/
def ranked (cfg : Config) (candidates : List Candidate) : List Candidate :=
  candidates.insertionSort fun a b => balancedOwnerSortKey cfg b ≤ balancedOwnerSortKey cfg a

/-! ## The calls -/

/-- `_reserve_policy_slot` -/
def State.reserve (s : State) (deploymentId : String) : Bool × State :=
  if deploymentId = "" then (false, s)
  else (true, { s with inflight := add s.inflight deploymentId })

/-- `live_by_id.get`: the last candidate of an id counts. -/
def liveById (candidates : List Candidate) (id : String) : Option Candidate :=
  (candidates.filter fun c => c.id = id).getLast?

/-- The members of the model's policy that are live. -/
def liveMembers (cfg : Config) (modelId : String) (candidates : List Candidate) :
    List PolicyMember :=
  ((cfg.policies modelId).getD []).filter fun m => (liveById candidates m.deploymentId).isSome

/-- `limit is None or inflight < limit` -/
def State.room (s : State) (m : PolicyMember) : Bool :=
  m.maxConcurrency.all fun limit => s.inflight m.deploymentId < limit

/-- The member that a policy chooses among the live ones. -/
def State.chosen (s : State) (members : List PolicyMember) : Option PolicyMember :=
  (members.find? s.room).or (members.argmin fun m => s.inflight m.deploymentId)

/-- `_select_routed_member` -/
def State.selectRouted (cfg : Config) (s : State) (modelId : String)
    (candidates : List Candidate) : Option Candidate × State :=
  match s.chosen (liveMembers cfg modelId candidates) with
  | none => (none, s)
  | some m => (liveById candidates m.deploymentId,
      { s with inflight := add s.inflight m.deploymentId })

/-- The turn of a ranking; another ranking starts over. -/
def State.turn (s : State) (modelId : String) (order : List String) : Turn :=
  match s.rotation modelId with
  | some turn => if turn.order = order then turn else ⟨order, 0⟩
  | none => ⟨order, 0⟩

/-- `tied`: the owners with the least in flight. -/
def State.tied (s : State) (ordered : List Candidate) : List Candidate :=
  ordered.filter fun c => ordered.all fun d => s.inflight c.id ≤ s.inflight d.id

/-- `_select_balanced_shared_owner`; of no candidates, `min` raises. -/
def State.selectBalanced (cfg : Config) (s : State) (modelId : String)
    (candidates : List Candidate) : Option Candidate × State :=
  let ordered := ranked cfg candidates
  let turn := s.turn modelId (ordered.map Candidate.id)
  let rotation := Function.update s.rotation modelId (some ⟨turn.order, turn.cursor + 1⟩)
  let tied := s.tied ordered
  match tied[turn.cursor % tied.length]? with
  | none => (none, { s with rotation := rotation })
  | some c => (some c, ⟨add s.inflight c.id, rotation⟩)

/-- `_release_routing_slot` -/
def State.release (s : State) (deploymentId : String) : State :=
  { s with inflight := sub s.inflight deploymentId }

/-! ## Calls one after the other -/

structure Service where
  state : State
  /-- The slots that are held. -/
  slots : List String

def started : Service := ⟨idle, []⟩

inductive Call where
  | policy (modelId : String) (candidates : List Candidate)
  | balanced (modelId : String) (candidates : List Candidate)
  | reserve (deploymentId : String)
  | release (deploymentId : String)

def step (cfg : Config) (s : Service) : Call → Option Service
  | .policy modelId candidates =>
    let r := s.state.selectRouted cfg modelId candidates
    some ⟨r.2, (r.1.map Candidate.id).toList ++ s.slots⟩
  | .balanced modelId candidates =>
    let r := s.state.selectBalanced cfg modelId candidates
    r.1.map fun c => ⟨r.2, c.id :: s.slots⟩
  | .reserve deploymentId =>
    let r := s.state.reserve deploymentId
    some ⟨r.2, if r.1 then deploymentId :: s.slots else s.slots⟩
  | .release deploymentId =>
    if deploymentId ∈ s.slots then
      some ⟨s.state.release deploymentId, s.slots.erase deploymentId⟩
    else none

end SparkDeck.Routing
