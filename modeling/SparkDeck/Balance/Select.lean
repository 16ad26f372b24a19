import SparkDeck.Affinity.Table
import SparkDeck.Cluster.Route

/-!
# Selecting a member for a request

Model of the route of a cluster request over the records of its members (`manager.py`:
`_cluster_members_sorted`, `_cluster_member_key`, `_member_record_available`,
`_cluster_member_available`, `_cluster_group_available`, `_balanced_cluster_member`,
`_grouped_coordinators`, `_cluster_route_order`, `_prefer_cluster_affinity`,
`_acquire_cluster_member`, `_release_cluster_member`).

* A `Candidate` is a record with its place in the deployment's list; Python's `is` is equality of
  candidates, and `==` equality of their records.
* `Host.casefold` is `str.casefold`, and `Host.cachedStatus` what the node registry observed last.
* Whom `_balanced_cluster_member` chooses is `Cluster.View.balanced`, of the view that these
  records give.
* A `Context` is the affinity table, the scope and the keys of a request, with the readings of the
  clock that its lookup makes.
-/

namespace SparkDeck.Balance

open Cluster (View)
open Affinity (Settings Table)

/-! ## Records -/

structure Container where
  name : Option String
  status : Option String

/-- A connectivity observation; an entry of `containers` that is no object is `none`. -/
structure Observed where
  online : Option Bool
  dockerReady : Option Bool
  containers : Option (List (Option Container))

structure Member where
  rank : Option ℤ
  instanceId : Option ℤ
  containerName : Option String
  nodeId : Option String
  desiredState : Option String
  status : Option String
  nodeStatus : Option String
  nodeDockerReady : Option Bool
  deriving DecidableEq

structure Candidate where
  place : ℕ
  member : Member
  deriving DecidableEq

inductive Mode where
  | groupedSharded
  | replicated
  | other

structure Deployment where
  id : Option String
  mode : Mode
  members : List Member

structure Host where
  casefold : String → String
  cachedStatus : String → Option Observed

/-- `str(value or "")`. -/
def text (value : Option String) : String := value.getD ""

/-- `int(member.get("rank") or 0)`. -/
def Candidate.rank (c : Candidate) : ℤ := c.member.rank.getD 0

/-- `int(member.get("instance_id") or 0)`. -/
def Candidate.instance (c : Candidate) : ℤ := c.member.instanceId.getD 0

def Deployment.candidates (d : Deployment) : List Candidate :=
  d.members.zipIdx.map fun x => ⟨x.2, x.1⟩

/-- `_cluster_members_sorted`. -/
def Deployment.sorted (d : Deployment) : List Candidate :=
  d.candidates.insertionSort fun a b => a.rank ≤ b.rank

/-- `_cluster_member_key`. -/
def Deployment.key (d : Deployment) (c : Candidate) : String :=
  match c.member.instanceId with
  | some i => text d.id ++ ":instance:" ++ toString i
  | none =>
    let identity :=
      if text c.member.containerName ≠ "" then text c.member.containerName
      else text c.member.nodeId
    text d.id ++ ":" ++ identity

/-! ## Availability -/

/-- `_member_record_available`. -/
def Host.recordAvailable (h : Host) (m : Member) : Bool :=
  m.desiredState ≠ some "stopped" && ["running", "ready"].contains (h.casefold (text m.status)) &&
    !(["offline", "unreachable", "unknown", "disconnected"].contains
      (h.casefold (text m.nodeStatus))) &&
    m.nodeDockerReady ≠ some false

/-- One of the observed containers is the member's, and runs. -/
def Host.seenRunning (h : Host) (m : Member) (containers : List (Option Container)) : Bool :=
  containers.any fun
    | some c => c.name = some (text m.containerName) &&
        ["running", "ready"].contains (h.casefold (text c.status))
    | none => false

/-- `_cluster_member_available`. -/
def Host.memberAvailable (h : Host) (m : Member) : Bool :=
  if m.nodeStatus.isSome then h.recordAvailable m
  else
    match h.cachedStatus (text m.nodeId) with
    | none => h.recordAvailable m
    | some observed =>
      if observed.online ≠ some true ∨ observed.dockerReady = some false then false
      else if h.recordAvailable m then true
      else
        match observed.containers with
        | none => false
        | some containers => h.seenRunning m containers

/-- `_cluster_group_available`. -/
def Host.groupAvailable (h : Host) (d : Deployment) (c : Candidate) : Bool :=
  if h.memberAvailable c.member then
    match c.member.instanceId with
    | none => true
    | some target =>
      (d.sorted.filter fun m => m.instance = target).all fun m => h.memberAvailable m.member
  else false

/-- How `_balanced_cluster_member` and `_prefer_cluster_affinity` look at a candidate. -/
def Host.available (h : Host) (d : Deployment) (c : Candidate) : Bool :=
  if c.member.instanceId.isSome then h.groupAvailable d c else h.memberAvailable c.member

/-! ## The route -/

/-- `_cluster_member_load_counts` and `_cluster_member_rotation`. -/
structure State where
  loads : String → ℕ
  rotation : String → ℕ

/-- `_cluster_member_active`. -/
def State.active (s : State) (d : Deployment) (c : Candidate) : ℕ := s.loads (d.key c)

def State.acquire (s : State) (d : Deployment) (c : Candidate) : State :=
  { s with loads := Function.update s.loads (d.key c) (s.loads (d.key c) + 1) }

def State.release (s : State) (d : Deployment) (c : Candidate) : State :=
  { s with loads := Function.update s.loads (d.key c) (s.loads (d.key c) - 1) }

def view (h : Host) (d : Deployment) (s : State) : View Candidate where
  available := h.available d
  active := s.active d
  rotation := s.rotation (text d.id)

/-- `_balanced_cluster_member`: the choice moves the rotation on. -/
def balanced (h : Host) (d : Deployment) (s : State) (members : List Candidate) :
    Option Candidate × State :=
  ((view h d s).balanced members,
    { s with rotation := Function.update s.rotation (text d.id) (s.rotation (text d.id) + 1) })

/-- `_grouped_coordinators`: the first of every instance, in the order of instances. -/
def Deployment.coordinators (d : Deployment) : List Candidate :=
  let running := d.sorted.filter fun c =>
    c.rank = 0 && text c.member.desiredState ≠ "stopped" && text c.member.status = "running"
  let byInstance := running.foldl (fun l c =>
    if (Assoc.get l c.instance).isSome then l else Assoc.set l c.instance c) []
  (byInstance.insertionSort fun a b => a.1 ≤ b.1).map Prod.snd

/-- The order of the failover candidates: the available, and then the least loaded, first. -/
def before (available : Candidate → Bool) (active : Candidate → ℕ) (a b : Candidate) : Bool :=
  if available a = available b then active a ≤ active b else available a

/-- The chosen member, and the rest. -/
def spread (h : Host) (d : Deployment) (s : State) (available : Candidate → Bool)
    (members : List Candidate) : List Candidate × State :=
  match balanced h d s members with
  | (none, s') => ([], s')
  | (some chosen, s') =>
    (chosen :: (members.filter (· ≠ chosen)).insertionSort
      fun a b => before available (s.active d) a b, s')

/-- `_cluster_route_order`. -/
def routeOrder (h : Host) (d : Deployment) (s : State) : List Candidate × State :=
  match d.mode with
  | .groupedSharded =>
    if d.coordinators = [] then ([], s) else spread h d s (h.groupAvailable d) d.coordinators
  | .replicated =>
    if d.sorted.length < 2 then (d.sorted.take 1, s)
    else spread h d s (fun c => h.memberAvailable c.member) d.sorted
  | .other => (d.sorted.take 1, s)

/-! ## The cache hint -/

variable {σ δ : Type} [DecidableEq σ] [DecidableEq δ]

structure Context (σ δ : Type) where
  settings : Settings
  table : Table σ δ String
  scope : σ
  keys : List (δ × ℕ)
  now : ℚ
  touched : ℚ

/-- `affinity.lookup(scope, keys, names)`. -/
def Context.lookup (c : Context σ δ) (names : List String) : Option String :=
  (c.table.lookup c.settings c.scope c.keys names c.now c.touched).answer

/-- The candidates by their keys; the last of one key is kept. -/
def targets (d : Deployment) (candidates : List Candidate) : List (String × Candidate) :=
  candidates.foldl (fun l c => Assoc.set l (d.key c) c) []

/-- The candidate that the affinity table names. -/
def Context.preferred (c : Context σ δ) (d : Deployment) (candidates : List Candidate) :
    Option Candidate :=
  (c.lookup ((targets d candidates).map Prod.fst)).bind (Assoc.get (targets d candidates))

/-- `_prefer_cluster_affinity`. -/
def preferAffinity (h : Host) (d : Deployment) (s : State) (candidates : List Candidate) :
    Option (Context σ δ) → List Candidate
  | none => candidates
  | some context =>
    if candidates.length < 2 then candidates
    else
      match context.preferred d candidates with
      | none => candidates
      | some preferred =>
        let available := candidates.filter (h.available d)
        let comparison := if available = [] then candidates else available
        if available ≠ [] ∧ preferred.member ∉ available.map Candidate.member then candidates
        else if comparison.any fun m => s.active d m < s.active d preferred then candidates
        else preferred :: candidates.filter (· ≠ preferred)

/-- The candidates of one request, best first. -/
def route (h : Host) (d : Deployment) (s : State) (context : Option (Context σ δ)) :
    List Candidate × State :=
  let routed := routeOrder h d s
  (preferAffinity h d routed.2 routed.1 context, routed.2)

/-- The first candidate takes the request. -/
def select (h : Host) (d : Deployment) (s : State) (context : Option (Context σ δ)) :
    Option Candidate × State :=
  match route h d s context with
  | ([], s') => (none, s')
  | (c :: _, s') => (some c, s'.acquire d c)

/-! ## The routable members -/

/-- The members in the order that the rotation follows. -/
def Deployment.routable (d : Deployment) : List Candidate :=
  match d.mode with
  | .groupedSharded => d.coordinators
  | .replicated => d.sorted
  | .other => d.sorted.take 1

theorem candidates_nodup (d : Deployment) : d.candidates.Nodup := by
  have hplaces : (d.candidates.map Candidate.place).Nodup := by
    have hmap : d.candidates.map Candidate.place = List.range d.members.length := by
      unfold Deployment.candidates
      rw [List.map_map]
      exact List.zipIdx_map_snd 0 d.members ▸ List.range_eq_range'.symm
    rw [hmap]
    exact List.nodup_range
  exact hplaces.of_map _

theorem sorted_perm (d : Deployment) : d.sorted.Perm d.candidates := List.perm_insertionSort _ _

theorem sorted_nodup (d : Deployment) : d.sorted.Nodup :=
  (sorted_perm d).nodup_iff.mpr (candidates_nodup d)

theorem sorted_pairwise (d : Deployment) :
    d.sorted.Pairwise fun a b => a.rank ≤ b.rank := by
  have htotal : Std.Total fun a b : Candidate => a.rank ≤ b.rank :=
    ⟨fun a b => Int.le_total a.rank b.rank⟩
  have htrans : IsTrans Candidate fun a b => a.rank ≤ b.rank := ⟨fun _ _ _ => le_trans⟩
  exact List.pairwise_insertionSort _ _

end SparkDeck.Balance
