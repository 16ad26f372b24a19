import Mathlib.Data.List.Basic

/-!
# The files of an update

`system-update.json`, with the rollout, its nodes and what became of them, and the phases that it
and `system-update-agent.json` name (`sparkdeck/updater.py`). A revision is a commit; it is only
compared. Messages, times and the branch are left out, and so is the cut of an error at 500
characters: what is read of an error is whether there is one.
-/

namespace SparkDeck.Update

/-- What a node or its agent says it is at. -/
inductive Phase where
  | idle
  | pending
  | ready
  | pendingTransfers
  | updating
  | accepted
  | staging
  | restarting
  | rollingBack
  | succeeded
  | upToDate
  | failed
  | rolledBack
  | recoveryRequired
  /-- Whatever else an agent answers. -/
  | other (name : String)
  deriving DecidableEq

/-- `FAILED_NODE_PHASES` -/
def Phase.isFailed : Phase → Bool
  | .failed => true
  | .rolledBack => true
  | .recoveryRequired => true
  | _ => false

/-- What `_finish_cluster_state` counts as completed. -/
def Phase.isCompleted : Phase → Bool
  | .succeeded => true
  | .upToDate => true
  | _ => false

/-- A verdict. -/
def Phase.isFinal (p : Phase) : Bool := p.isFailed || p.isCompleted

/-- A node of a rollout. -/
structure Node where
  name : String
  «local» : Bool
  blockers : List String
  phase : Phase
  current : Option ℕ
  error : Option String
  deriving DecidableEq

/-- It has an error, which is not the empty text. -/
def Node.hasError (n : Node) : Bool :=
  match n.error with
  | some e => e ≠ ""
  | none => false

/-- What `_finish_cluster_state` counts as a failure. -/
def Node.isFailure (n : Node) : Bool := n.phase.isFailed || n.hasError

/-- `node.update(phase="failed", error=…)` -/
def Node.fail (n : Node) (e : String) : Node := { n with phase := .failed, error := some e }

/-- What was not decided is failed. -/
def Node.interrupt (n : Node) (e : String) : Node := if n.phase.isFinal then n else n.fail e

/-- The phase of a rollout. -/
inductive JobPhase where
  | absent
  | preflight
  | pendingTransfers
  | updatingWorkers
  | updatingController
  | succeeded
  /-- "partial" -/
  | partly
  | failed
  deriving DecidableEq

/-- `system-update.json` -/
structure Record where
  active : Bool
  phase : JobPhase
  target : Option ℕ
  nodes : List Node
  error : Option String
  deriving DecidableEq

/-- There is no file. -/
def Record.empty : Record := ⟨false, .absent, none, [], none⟩

variable (r : Record)

/-- A change of node `i`. -/
def Record.modify (i : ℕ) (f : Node → Node) : Record := { r with nodes := r.nodes.modify i f }

/-- A change of the local node. -/
def Record.modifyLocal (f : Node → Node) : Record :=
  match r.nodes.findIdx? (·.local) with
  | some i => r.modify i f
  | none => r

/-- The error of a rollout that failed. -/
def errors (nodes : List Node) : String :=
  "; ".intercalate <| nodes.map fun n =>
    n.name ++ ": " ++ if n.hasError then n.error.getD "" else "update failed"

/-- `_finish_cluster_state` -/
def Record.finish : Record :=
  let failures := r.nodes.filter (·.isFailure)
  let completed := r.nodes.filter (·.phase.isCompleted)
  if failures = [] then { r with active := false, phase := .succeeded, error := none }
  else
    { r with
      active := false
      phase := if completed = [] then .failed else .partly
      error := some (errors failures) }

/-- What is not decided is failed, and the rollout is over. -/
def Record.abort (e : String) : Record :=
  Record.finish { r with nodes := r.nodes.map fun n => n.interrupt e }

end SparkDeck.Update
