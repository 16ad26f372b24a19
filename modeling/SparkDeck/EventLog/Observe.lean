import Mathlib.Data.List.Dedup
import SparkDeck.Lib.Assoc
import SparkDeck.Lib.Transcript

/-!
# The lifecycle event log

`_observe_deployment_events` of `service.py`: it compares what a pass over the deployments shows
with the last state that it knows of each deployment, or of each engine group of one, and logs what
has changed.

A pass is read as the list of its `turns`: the removal of the keys that a complete inventory does
not show, and for every deployment the error of the deployment itself, if it has engine groups, and
then each of its groups. `step` is one turn, with the lines that it logs, and `observe` a pass.
-/

namespace SparkDeck.EventLog

/-- The statuses that the observer and the evidence of a lost process name. -/
inductive Status where
  | running | starting | stopping | degraded | stopped | error | unknown | missing | unreachable
  | crashed | exited | dead | removed | recovering | restarting | saved
  | other (text : String)
  deriving DecidableEq

inductive InstanceId where
  | int (n : Int)
  | str (s : String)
  deriving DecidableEq

/-- `str(instance)`. -/
def InstanceId.text : InstanceId → String
  | .int n => toString n
  | .str s => s

/-- `instance_id or 0`. -/
def InstanceId.orZero : Option InstanceId → InstanceId
  | none => .int 0
  | some (.str s) => if s = "" then .int 0 else .str s
  | some (.int n) => .int n

structure Member where
  instanceId : Option InstanceId := none
  status : Option Status := none
  desiredState : Option Status := none
  nodeDockerReady : Bool := false
  recreatePending : Bool := false
  deriving DecidableEq

structure Cluster where
  status : Option Status := none
  desiredState : Option Status := none
  healthIssue : Bool := false
  members : List Member := []
  deriving DecidableEq

/-- The members of one engine group, all of them for no group. -/
def Cluster.membersOf (cluster : Cluster) : Option InstanceId → List Member
  | none => cluster.members
  | some i => cluster.members.filter fun m => (InstanceId.orZero m.instanceId).text = i.text

/-- A rank whose container is gone, as far as its node can tell. -/
def Member.lost (m : Member) : Bool :=
  match m.status with
  | some .exited | some .dead | some .removed | some .error => true
  | some .missing => m.nodeDockerReady
  | _ => false

/-- `_deployment_process_lost`. -/
def processLost (cluster : Cluster) (inst : Option InstanceId) : Bool :=
  if cluster.desiredState = some .stopped ∨ cluster.status = some .stopped ∨
      cluster.status = some .stopping then
    false
  else
    let expected := (cluster.membersOf inst).filter fun m => m.desiredState ≠ some .stopped
    if expected.any Member.lost then
      true
    else if cluster.status = some .recovering ∧ cluster.healthIssue then
      -- a group needs evidence of its own, so that healthy siblings never count as crashed
      inst.isNone || expected.any fun m =>
        m.status = some .starting ∨ m.status = some .restarting ∨ m.status = some .stopped
    else
      false

/-- `_deployment_recreating`. -/
def recreating (cluster : Cluster) (inst : Option InstanceId) : Bool :=
  (cluster.membersOf inst).any Member.recreatePending

/-- A row that can run: an engine group, or a deployment without groups. No `desiredState` is a row
without that field. -/
structure Group where
  instanceId : Option InstanceId := none
  status : Option Status := none
  lastError : String := ""
  error : String := ""
  desiredState : Option Status := none
  deriving DecidableEq

inductive DeploymentKind where
  | managed | external
  deriving DecidableEq

structure Deployment where
  id : String
  aliasName : String := ""
  name : String := ""
  kind : Option DeploymentKind := none
  row : Group := {}
  instances : List Group := []
  deriving DecidableEq

/-- `a or b` on texts. -/
def orElse (a b : String) : String := if a = "" then b else a

def Group.text (g : Group) : String := orElse g.lastError g.error

def Deployment.label (d : Deployment) : String := orElse d.aliasName (orElse d.name d.id)

def Deployment.groups (d : Deployment) : List Group :=
  if d.instances = [] then [d.row] else d.instances

def Deployment.externalEndpoint (d : Deployment) : Bool :=
  d.kind = some .external && !"container:".toList.isPrefixOf d.id.toList

abbrev Key := String × Option InstanceId

inductive Event where
  | launched | crashed | stopped | error
  deriving DecidableEq

inductive Level where
  | info | error
  deriving DecidableEq

/-- A line of the log, with the key that it is logged for. -/
structure Record where
  key : Key
  level : Level
  event : Option Event
  message : String
  deriving DecidableEq

structure State where
  states : List (Key × Status × String) := []
  errors : List (Key × String) := []

/-- A launched process that has not been seen to end. -/
def Status.alive : Status → Bool
  | .running | .starting | .stopping | .degraded => true
  | _ => false

/-- What proves neither a launch nor an exit. -/
def Status.outage : Status → Bool
  | .unknown | .missing | .unreachable => true
  | _ => false

/-- What a running process can be seen in without having exited. -/
def Status.wobble : Status → Bool
  | .starting | .degraded | .stopping => true
  | _ => false

def suffixed (message error : String) : String :=
  if error = "" then message else message ++ ": " ++ error

/-- `name (engine group n)`. -/
def groupName (label : String) : Option InstanceId → String
  | none => label
  | some i => label ++ " (engine group " ++ i.text ++ ")"

/-- An error text is kept, and logged when it is new, unless the event that follows carries it. -/
def noteError (s : State) (key : Key) (name error : String) (carried : Bool) :
    State × List Record :=
  (if error = "" then { s with errors := Assoc.erase s.errors key }
    else { s with errors := Assoc.set s.errors key error },
   if error ≠ "" ∧ carried = false ∧ Assoc.get s.errors key ≠ some error then
     [⟨key, .error, none, "Deployment " ++ name ++ " error: " ++ error⟩]
   else [])

/-- One key of the removal loop. -/
def retireKey (present : List String) (s : State) (key : Key) : State × List Record :=
  if key.1 ∈ present then
    (s, [])
  else
    (⟨Assoc.erase s.states key, Assoc.erase s.errors key⟩,
     if (Assoc.get s.states key).any fun previous => previous.1.alive then
       [⟨key, .info, some .stopped,
         "Deployment " ++ groupName key.1 key.2 ++ " stopped (removed from inventory)"⟩]
     else [])

/-- The keys of the two tables, each once. The source goes through them as a set, in no order. -/
def State.keys (s : State) : List Key := (s.states.map Prod.fst ++ s.errors.map Prod.fst).dedup

def retireKeys (present : List String) : State × List Record → List Key → State × List Record
  | acc, [] => acc
  | acc, key :: keys =>
    let r := retireKey present acc.1 key
    retireKeys present (r.1, acc.2 ++ r.2) keys

/-- The removal of what a complete inventory does not show. -/
def retire (present : List String) (s : State) : State × List Record :=
  retireKeys present (s, []) s.keys

/-- The error of a deployment with engine groups. -/
def observeParent (s : State) (d : Deployment) : State × List Record :=
  noteError s (d.id, none) d.label (if d.row.status = some .running then "" else d.row.text) false

/-- The event of a state that is not the last one. -/
def eventOf (previous : Option (Status × String)) (status : Status) (desired : Option Status) :
    Option (Event × Level) :=
  if status = .running ∧ ¬ previous.any (fun p => p.1 = .running) then
    some (.launched, .info)
  else if status = .error then
    some (if previous.any fun p => p.1 = .running then .crashed else .error, .error)
  else if status = .stopped ∧ previous.any (fun p => p.1.alive) then
    if desired = some .running then some (.crashed, .error) else some (.stopped, .info)
  else
    none

def Event.word : Event → String
  | .launched => "launched"
  | .crashed => "crashed"
  | .stopped => "stopped"
  | .error => "error"

/-- What a row shows of a process. -/
structure Sight where
  status : Status
  error : String
  lost : Bool
  recreating : Bool
  desired : Option Status

/-- A group in error without a text of its own has that of its deployment. -/
def errorOf (d : Deployment) (g : Group) : String :=
  if g.text = "" ∧ g.status.getD .unknown = .error then d.row.text else g.text

/-- The health of an endpoint and a failed inventory show no process; a healthy row has no error. -/
def sightOf (d : Deployment) (g : Group) (runtime : Cluster) : Option Sight :=
  let status := g.status.getD .unknown
  if d.externalEndpoint || status.outage then
    none
  else
    some
      { status
        error := if status = .running then "" else errorOf d g
        lost := processLost runtime g.instanceId
        recreating := recreating runtime g.instanceId
        desired := g.desiredState <|> d.row.desiredState }

/-- A row that shows a process. -/
def observeProcess (s : State) (key : Key) (name : String) (w : Sight) : State × List Record :=
  let previous := Assoc.get s.states key
  if w.status ≠ .running ∧ w.lost ∧ previous.any (fun p => p.1 = .running) then
    ({ states := Assoc.set s.states key (.crashed, w.error)
       errors := if w.error = "" then s.errors else Assoc.set s.errors key w.error },
     [⟨key, .error, some .crashed, suffixed ("Deployment " ++ name ++ " crashed") w.error⟩])
  else
    let noted := noteError s key name w.error (w.status = .error)
    -- a recreation ends the launch, so that its replacement is announced again
    if previous.any (fun p => p.1 = .running) = true ∧ w.status.wobble = true ∧
        w.recreating = false then
      noted
    else if previous = some (w.status, w.error) then
      noted
    else
      ({ noted.1 with states := Assoc.set s.states key (w.status, w.error) },
       noted.2 ++ (eventOf previous w.status w.desired).toList.map fun e =>
         ⟨key, e.2, some e.1, suffixed ("Deployment " ++ name ++ " " ++ e.1.word) w.error⟩)

/-- One engine group, or a deployment without groups. -/
def observeGroup (s : State) (d : Deployment) (g : Group) (runtime : Cluster) :
    State × List Record :=
  let key : Key := (d.id, g.instanceId)
  let name := groupName d.label g.instanceId
  match sightOf d g runtime with
  | some w => observeProcess s key name w
  | none =>
    let healthy := d.externalEndpoint ∧ g.status.getD .unknown ≠ .error
    noteError s key name (if healthy then "" else errorOf d g) false

inductive Turn where
  | retire (present : List String)
  | parent (d : Deployment)
  | group (d : Deployment) (g : Group) (runtime : Cluster)
  deriving DecidableEq

def step (s : State) : Turn → State × List Record
  | .retire present => retire present s
  | .parent d => observeParent s d
  | .group d g runtime => observeGroup s d g runtime

structure Pass where
  deployments : List Deployment
  inventoryComplete : Bool := false
  runtimeDeployments : List (String × Cluster) := []

def Pass.runtime (p : Pass) (id : String) : Cluster := (Assoc.get p.runtimeDeployments id).getD {}

/-- What a pass goes through for one deployment. -/
def Pass.turnsOf (p : Pass) (d : Deployment) : List Turn :=
  if d.id = "" then
    []
  else
    (if d.instances = [] then [] else [Turn.parent d]) ++
      d.groups.map fun g => Turn.group d g (p.runtime d.id)

def Pass.turns (p : Pass) : List Turn :=
  (if p.inventoryComplete then [Turn.retire (p.deployments.map Deployment.id)] else []) ++
    p.deployments.flatMap p.turnsOf

open Transcript

/-- `_observe_deployment_events`: the tables after a pass, and what it logs. -/
def observe (s : State) (p : Pass) : State × List Record :=
  (final step s p.turns, (transcript step s p.turns).flatMap Prod.snd)

/-- The observer after a run of passes. -/
def after (passes : List Pass) : State := passes.foldl (fun s p => (observe s p).1) {}

/-- Every turn of a run of passes, with what it logged. -/
def history (passes : List Pass) : List (Turn × List Record) :=
  transcript step {} (passes.flatMap Pass.turns)

end SparkDeck.EventLog
