import Mathlib.Algebra.Group.Int.Defs
import Mathlib.Algebra.Group.Nat.Defs
import Mathlib.Data.List.Basic

/-!
# Data volumes of Strata deployments

`_strata_data_volume`, `_prune_strata_data_volumes`, `_remove_strata_data_volumes`,
`_strata_replacement_ranks`, `prune_strata_record_volumes`, `prune_strata_member_volumes`,
`_reclaim_aborted_strata_removals`, and what `_create_deployment`, `_deployment_action_locked` and
`_resume_interrupted_deployment_locked` do to containers and volumes (`manager.py`).

The operations are serialized by the cluster action lock, so each is one step; what the nodes and
their Docker answer is in `Calls`. A change of the settings shows in the fingerprint of the next
launch. A volume is named by its key and its fingerprint, and labelled with the key. Containers that
were made before the label of the key existed are left out, and so is everything about a deployment
that says nothing of its volumes.
-/

namespace SparkDeck.Strata

/-- `_strata_setup_fingerprint`: twelve digits. -/
structure Fingerprint where
  text : String
  length : text.toList.length = 12

instance : DecidableEq Fingerprint := fun a b =>
  if h : a.text = b.text then
    isTrue (by
      cases a
      cases b
      cases h
      rfl)
  else isFalse fun he => h (he ▸ rfl)

/-- `cluster-{deployment_id}-r{rank}-…`, or the name of a standalone container. -/
inductive ContainerName where
  | member (deployment : String) (rank : ℕ)
  | alone (name : String)
  deriving DecidableEq

structure Volume (N : Type) where
  node : N
  /-- `STRATA_VOLUME_LABEL` -/
  key : String
  fingerprint : Fingerprint
  deriving DecidableEq

/-- A Strata container; its `/data` is the volume of its key and its fingerprint. -/
structure Container (N : Type) where
  node : N
  name : ContainerName
  /-- `STRATA_VOLUME_KEY_LABEL` -/
  key : String
  fingerprint : Fingerprint

structure Member (N : Type) where
  node : N
  rank : ℕ

structure Deployment (N : Type) where
  id : String
  /-- `sparkdeck_record_id`, empty if there is none. -/
  record : String
  nodeIds : List N
  members : List (Member N)
  /-- The status is `launching` or `recovering`. -/
  interrupted : Bool

structure State (N : Type) where
  volumes : List (Volume N)
  containers : List (Container N)
  deployments : List (Deployment N)
  /-- History: the volumes reclaimed, each with the key it was reclaimed for. -/
  reclaimed : List (String × Volume N)
  /-- History: the nodes where a removal has failed. -/
  failed : List N
  /-- History: the nodes and keys that the last operation, a relaunch, preserved, and the containers
  that its replacement has there. -/
  preserved : List (N × String × ContainerName)

def init (N : Type) : State N := ⟨[], [], [], [], [], []⟩

/-- `_strata_volume_prefix` -/
def strataVolumePrefix (key : String) : String := "sparkdeck-strata-" ++ key

def Volume.name {N : Type} (v : Volume N) : String :=
  strataVolumePrefix v.key ++ "-" ++ v.fingerprint.text

/-- `volume.name.startswith(prefix)` -/
def Volume.matches {N : Type} (key : String) (v : Volume N) : Bool :=
  (strataVolumePrefix key).toList.isPrefixOf v.name.toList

/-- The key of a rank. -/
def memberKey (owner : String) (rank : ℕ) : String := owner ++ "-r" ++ toString rank

/-- How the removal of a container goes. -/
inductive Removal where
  | done
  /-- It fails, and nothing is removed. -/
  | failed
  /-- It is removed, and the answer is lost. -/
  | lost
  deriving DecidableEq

/-- How the creation of a container goes. -/
inductive Made where
  | created
  /-- It fails before anything is made. -/
  | refused
  /-- It fails when the volume is there. -/
  | halfway
  /-- It is created, and the answer is lost. -/
  | lost
  deriving DecidableEq

/-- How far `create_deployment` gets. -/
inductive Stage where
  /-- The preflight fails. -/
  | rejected
  /-- It fails when the record is saved, without members. -/
  | refused
  | launched
  /-- The controller is killed during the launches. -/
  | killed
  deriving DecidableEq

/-- What an operation is answered. -/
structure Calls (N : Type) where
  /-- The new deployment. -/
  id : String
  stage : Stage
  made : N → Made
  fingerprint : N → Fingerprint
  removal : N → Removal
  rollback : N → Removal
  /-- The node is asked to reclaim volumes, and answers. -/
  reclaims : N → Bool
  /-- Docker refuses to remove the volume. -/
  refuses : Volume N → Bool
  /-- The errors say that a node does not answer. -/
  reconnecting : Bool

variable {N : Type} [DecidableEq N]

def Deployment.owner (d : Deployment N) : String := if d.record = "" then d.id else d.record

def Deployment.key (d : Deployment N) (rank : ℕ) : String := memberKey d.owner rank

/-! ## On a node -/

/-- A container has the volume. -/
def State.inUse (s : State N) (v : Volume N) : Bool :=
  s.containers.any fun c =>
    decide (c.node = v.node) && (decide (c.key = v.key) && decide (c.fingerprint = v.fingerprint))

/-- A volume that `_prune_strata_data_volumes` removes if Docker does. -/
def State.stale (s : State N) (node : N) (key keep : String) (v : Volume N) : Bool :=
  decide (v.node = node) && decide (v.name ≠ keep) && v.matches key && !s.inUse v

/-- `_prune_strata_data_volumes` -/
def State.pruneStrataDataVolumes (refuses : Volume N → Bool) (node : N) (key keep : String)
    (s : State N) : State N :=
  { s with
    volumes := s.volumes.filter fun v => !(s.stale node key keep v && !refuses v)
    reclaimed :=
      ((s.volumes.filter fun v => s.stale node key keep v && !refuses v).map fun v => (key, v)) ++
        s.reclaimed
    failed :=
      if s.volumes.any fun v => s.stale node key keep v && refuses v then node :: s.failed
      else s.failed }

/-- `_strata_data_volume` -/
def State.strataDataVolume (v : Volume N) (s : State N) : State N :=
  if v ∈ s.volumes then s else { s with volumes := v :: s.volumes }

/-- The container of a launch, with its volume (`_create_strata_container`). -/
def State.createStrataContainer (refuses : Volume N → Bool) (how : Made) (c : Container N)
    (s : State N) : State N :=
  let v : Volume N := ⟨c.node, c.key, c.fingerprint⟩
  let run : State N :=
    let s' := s.strataDataVolume v
    { s' with containers := c :: s'.containers }.pruneStrataDataVolumes refuses c.node c.key v.name
  match how with
  | .refused => s
  | .halfway => s.strataDataVolume v
  | .created => run
  | .lost => run

/-- `remove_container` with `_remove_strata_data_volumes`; `none` if there is no such container. -/
def State.removeContainer (refuses : Volume N → Bool) (preserve : Bool) (node : N)
    (name : ContainerName) (s : State N) : Option (State N) :=
  (s.containers.find? fun c => decide (c.node = node) && decide (c.name = name)).map fun c =>
    let s' := { s with
      containers := s.containers.filter fun c => !(decide (c.node = node) && decide (c.name = name)) }
    if preserve then s' else s'.pruneStrataDataVolumes refuses node c.key ""

/-! ## On the controller -/

inductive Answer where
  | removed
  | absent
  | error
  deriving DecidableEq

def State.fail (node : N) (s : State N) : State N := { s with failed := node :: s.failed }

/-- `_member_action(member, "remove")` -/
def State.remove (refuses : Volume N → Bool) (how : Removal) (preserve : Bool) (node : N)
    (name : ContainerName) (s : State N) : State N × Answer :=
  match how with
  | .failed => (s.fail node, .error)
  | .lost => (((s.removeContainer refuses preserve node name).getD s).fail node, .error)
  | .done =>
    match s.removeContainer refuses preserve node name with
    | none => (s, .absent)
    | some s' => (s', .removed)

/-- The members of the deployment `id` are removed. -/
def State.removeMembers (refuses : Volume N → Bool) (how : N → Removal)
    (preserve : Member N → Bool) (id : String) :
    List (Member N) → State N → State N × List (Member N × Answer)
  | [], s => (s, [])
  | m :: members, s =>
    let r := s.remove refuses (how m.node) (preserve m) m.node (.member id m.rank)
    let rest := r.1.removeMembers refuses how preserve id members
    (rest.1, (m, r.2) :: rest.2)

/-- `prune_strata_member_volumes` -/
def State.pruneStrataMemberVolumes (calls : Calls N) (record : String) :
    List (N × ℕ) → State N → State N
  | [], s => s
  | p :: placements, s =>
    let s' :=
      if calls.reclaims p.1 then
        s.pruneStrataDataVolumes calls.refuses p.1 (memberKey record p.2) ""
      else s.fail p.1
    s'.pruneStrataMemberVolumes calls record placements

/-- `_strata_replacement_ranks`, a dictionary: the last entry of a node counts. -/
def strataReplacementRanks (record : String) (nodeIds : List N) : List (N × ℕ) :=
  if record = "" then [] else nodeIds.zipIdx

/-- `prune_strata_record_volumes` -/
def State.pruneStrataRecordVolumes (calls : Calls N) (record : String) (nodeIds : List N)
    (s : State N) : State N :=
  if record = "" then s
  else
    s.pruneStrataMemberVolumes calls record
      (nodeIds.flatMap fun node => (List.range nodeIds.length).map fun rank => (node, rank))

/-- The members of a new deployment are created. -/
def State.createMembers (calls : Calls N) (d : Deployment N) : List (Member N) → State N → State N
  | [], s => s
  | m :: members, s =>
    let c : Container N := ⟨m.node, .member d.id m.rank, d.key m.rank, calls.fingerprint m.node⟩
    (s.createStrataContainer calls.refuses (calls.made m.node) c).createMembers calls d members

/-- The record of a new deployment. -/
def Calls.deployment (calls : Calls N) (record : String) (nodeIds : List N) : Deployment N where
  id := calls.id
  record := record
  nodeIds := nodeIds
  members :=
    match calls.stage with
    | .launched => nodeIds.mapIdx fun rank node => ⟨node, rank⟩
    | .killed => nodeIds.mapIdx fun rank node => ⟨node, rank⟩
    | _ => []
  interrupted := decide (calls.stage ≠ .launched)

/-- `create_deployment`: whether it returns or raises, `none` if the controller is killed. -/
def State.createDeployment (calls : Calls N) (record : String) (nodeIds : List N) (s : State N) :
    State N × Option Bool :=
  let d := calls.deployment record nodeIds
  let saved := { s with deployments := s.deployments ++ [d] }
  let launched := saved.createMembers calls d d.members
  match calls.stage with
  | .rejected => (s, some false)
  | .refused => (saved, some false)
  | .killed => (launched, none)
  | .launched =>
    if d.members.all fun m => decide (calls.made m.node = .created) then (launched, some true)
    else
      let created := d.members.filter fun m => decide (calls.made m.node = .created)
      ((launched.removeMembers calls.refuses calls.rollback (fun _ => false) d.id created).1,
        some false)

def State.deployment (s : State N) (id : String) : Option (Deployment N) :=
  s.deployments.find? fun d => decide (d.id = id)

def State.drop (id : String) (s : State N) : State N :=
  { s with deployments := s.deployments.filter fun d => decide (d.id ≠ id) }

def State.update (id : String) (f : Deployment N → Deployment N) (s : State N) : State N :=
  { s with deployments := s.deployments.map fun d => if d.id = id then f d else d }

/-- A member whose node and rank the replacement uses. -/
def preserves (record : String) (nodeIds : List N) (m : Member N) : Bool :=
  decide ((strataReplacementRanks record nodeIds).reverse.lookup m.node = some m.rank)

/-- What a relaunch preserves. -/
def Deployment.preserved (d : Deployment N) (calls : Calls N) (nodeIds : List N) :
    List (N × String × ContainerName) :=
  (d.members.filter fun m =>
      preserves d.record nodeIds m && decide (calls.removal m.node ≠ .failed)).map fun m =>
    (m.node, memberKey d.record m.rank, .member calls.id m.rank)

/-- The placements that `_reclaim_aborted_strata_removals` reclaims. -/
def abortedPlacements (record : String) (nodeIds : List N) (answers : List (Member N × Answer)) :
    List (N × ℕ) :=
  (answers.filter fun a => preserves record nodeIds a.1 && decide (a.2 ≠ .error)).map fun a =>
    (a.1.node, a.1.rank)

/-- The relaunch branch of `deployment_action`. -/
def State.relaunch (calls : Calls N) (d : Deployment N) (nodeIds : List N) (s : State N) :
    State N :=
  let removed := s.removeMembers calls.refuses calls.removal (preserves d.record nodeIds) d.id
    d.members
  let preserved := d.preserved calls nodeIds
  if removed.2.any fun a => decide (a.2 = .error) then
    { (removed.1.update d.id fun d => { d with interrupted := false }).pruneStrataMemberVolumes calls
        d.record (abortedPlacements d.record nodeIds removed.2) with preserved := preserved }
  else
    let cleared := removed.1.update d.id fun d => { d with members := [], interrupted := false }
    let created := cleared.createDeployment calls d.record nodeIds
    match created.2 with
    | some true => { created.1.drop d.id with preserved := preserved }
    | some false =>
      { created.1.pruneStrataRecordVolumes calls d.record nodeIds with preserved := preserved }
    | none => { created.1 with preserved := [] }

/-- `_resume_interrupted_deployment_locked`. When nodes do not answer, it goes on later. -/
def State.resume (calls : Calls N) (d : Deployment N) (s : State N) : State N :=
  let removed := s.removeMembers calls.refuses calls.removal (preserves d.record d.nodeIds) d.id
    d.members
  let preserved := d.preserved calls d.nodeIds
  if removed.2.any fun a => decide (a.2 = .error) then
    if calls.reconnecting then { removed.1 with preserved := [] }
    else
      { (removed.1.update d.id fun d => { d with interrupted := false }).pruneStrataMemberVolumes
          calls d.record (abortedPlacements d.record d.nodeIds removed.2) with
        preserved := preserved }
  else
    let created := (removed.1.drop d.id).createDeployment calls d.record d.nodeIds
    match created.2 with
    | some true => { created.1 with preserved := preserved }
    | none => { created.1 with preserved := [] }
    | some false =>
      if calls.reconnecting then
        if calls.stage = .rejected then
          { created.1 with
            deployments := created.1.deployments ++ [{ d with interrupted := true }]
            preserved := [] }
        else
          { created.1.update calls.id fun d => { d with interrupted := true } with preserved := [] }
      else
        let reclaimed := created.1.pruneStrataRecordVolumes calls d.record d.nodeIds
        if calls.stage = .rejected then
          { reclaimed with
            deployments := reclaimed.deployments ++ [{ d with interrupted := false }]
            preserved := preserved }
        else { reclaimed with preserved := preserved }

/-- `deployment_action(remove)` -/
def State.removeDeployment (calls : Calls N) (d : Deployment N) (s : State N) : State N :=
  let removed := s.removeMembers calls.refuses calls.removal (fun _ => false) d.id d.members
  if removed.2.any fun a => decide (a.2 = .error) then
    removed.1.update d.id fun d => { d with interrupted := false }
  else removed.1.drop d.id

inductive Event (N : Type) where
  | create (record : String) (nodeIds : List N) (calls : Calls N)
  /-- A start that relaunches, on the nodes it had unless others are named. -/
  | relaunch (id : String) (nodeIds : List N) (calls : Calls N)
  | resume (id : String) (calls : Calls N)
  | remove (id : String) (calls : Calls N)
  /-- A container without a cluster, of a record or of none. -/
  | launchAlone (node : N) (name record : String) (calls : Calls N)
  | removeAlone (node : N) (name : String) (calls : Calls N)

/-- The id of a new deployment is new. -/
def State.fresh (s : State N) (id : String) : Bool :=
  (s.deployments.all fun d => decide (d.id ≠ id)) &&
    s.containers.all fun c =>
      match c.name with
      | .member deployment _ => decide (deployment ≠ id)
      | .alone _ => true

/-- The nodes of a relaunch. -/
def Deployment.nodesOr (d : Deployment N) (nodeIds : List N) : List N :=
  if nodeIds = [] then d.nodeIds else nodeIds

/-- The key of a standalone container. -/
def aloneKey (name record : String) : String := if record = "" then name else record

/-- Only distinct nodes are selected, and a name is used once on a node. -/
def step (s : State N) : Event N → Option (State N)
  | .create record nodeIds calls =>
    if nodeIds.Nodup ∧ s.fresh calls.id then
      some { (s.createDeployment calls record nodeIds).1 with preserved := [] }
    else none
  | .relaunch id nodeIds calls =>
    (s.deployment id).bind fun d =>
      if (d.nodesOr nodeIds).Nodup ∧ s.fresh calls.id then
        some (s.relaunch calls d (d.nodesOr nodeIds))
      else none
  | .resume id calls =>
    (s.deployment id).bind fun d =>
      if d.interrupted ∧ d.nodeIds.Nodup ∧ s.fresh calls.id then some (s.resume calls d) else none
  | .remove id calls =>
    (s.deployment id).map fun d => { s.removeDeployment calls d with preserved := [] }
  | .launchAlone node name record calls =>
    if s.containers.any fun c => decide (c.node = node) && decide (c.name = .alone name) then none
    else
      some { s.createStrataContainer calls.refuses (calls.made node)
          ⟨node, .alone name, aloneKey name record, calls.fingerprint node⟩ with preserved := [] }
  | .removeAlone node name calls =>
    some { (s.remove calls.refuses (calls.removal node) false node (.alone name)).1 with
      preserved := [] }

end SparkDeck.Strata
