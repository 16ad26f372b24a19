import Mathlib.Data.List.Basic
import Mathlib.Data.Rat.Defs
import SparkDeck.Lib.Transition

/-!
# The ownership ledger of a node

`ManagedWorkloadLedger` (`sparkdeck/workload_ownership.py`) and the operations of `manager.py` that
use it: `_run_managed_container`, `list_containers`, `remove_container` and
`update_container_settings`.

* The four operations hold the lock of the ledger from their first step to their last, so at most one
  is under way (`op`). A call of Docker and a write of the ledger is one step each, and the process
  can be killed between any two.
* Docker is a map from names to containers. A call that fails may have taken effect or not, and tells
  nothing; a look-up that succeeds tells the truth.
* A write of the ledger fails before it has replaced the file, or not at all.
* `update_container_settings` is modelled for managed containers, which it inspects before it takes
  the lock, so that the container may be gone. On one that is not managed it neither takes the lock
  nor touches the ledger, and makes no managed container: that is `other`, as is everything that
  other programs do to such containers. `vanish` is a removal by another program.
* The name that a backup gets, and that of the helper of `_strata_prepared_marker_present`, are new:
  they end in random digits. The helper carries the label of managed containers.
* `spare` says which names were given to backups and helpers; it is not state of the program.
-/

namespace SparkDeck.Ownership

open Function

variable {N D : Type*} [DecidableEq N]

inductive Status where
  | pending
  | active

structure Claim (D : Type*) where
  state : Status
  deploymentId : Option D
  claimedAt : ℚ

/-- The claims on disk. -/
abbrev Ledger (N D : Type*) := N → Option (Claim D)

section ledger

variable (ledger : Ledger N D) (now : ℚ)

def claim (name : N) (deploymentId : Option D) : Ledger N D :=
  update ledger name (some ⟨.pending, deploymentId, now⟩)

/-- `float(existing.get("claimed_at") or now)` -/
def claimedAt (existing : Option (Claim D)) : ℚ :=
  match existing with
  | some c => if c.claimedAt = 0 then now else c.claimedAt
  | none => now

def confirm (name : N) (deploymentId : Option D) : Ledger N D :=
  update ledger name
    (some ⟨.active, deploymentId <|> (ledger name).bind Claim.deploymentId,
      claimedAt now (ledger name)⟩)

def release (name : N) : Ledger N D := update ledger name none

/-- Every observed container has a claim, and nothing else has. -/
def reconcile (observed : N → Option (Option D)) : Ledger N D := fun name =>
  match observed name with
  | some deploymentId =>
    some ⟨.active, deploymentId <|> (ledger name).bind Claim.deploymentId,
      claimedAt now (ledger name)⟩
  | none => none

end ledger

structure Container (D : Type*) where
  /-- The label `io.sparkdeck.managed` is `1`. -/
  managed : Bool
  deploymentId : Option D

/-- An operation that has the lock, and what it does next. -/
inductive Op (N D : Type*) where
  /-- `_run_managed_container` -/
  | claims (name : N) (c : Container D)
  | creates (name : N) (c : Container D)
  /-- `create` failed; the container is looked up. -/
  | looksUp (name : N) (c : Container D)
  | confirms (name : N) (deploymentId : Option D)
  | releases (name : N)
  /-- `list_containers` -/
  | inventory
  | reconciles (observed : N → Option (Option D))
  /-- `remove_container` -/
  | finds (name : N)
  | removes (name : N)
  /-- `update_container_settings` -/
  | replaces (name : N)
  | stops (name : N)
  | renames (name : N)
  | recreates (name backup : N)
  /-- The replacement starts, and is watched. -/
  | settles (name backup : N)
  | adopts (name backup : N)
  | drops (name backup : N)
  /-- The replacement failed, and is removed. -/
  | undoes (name backup : N)
  | restores (name backup : N)

structure State (N D : Type*) where
  docker : N → Option (Container D)
  ledger : Ledger N D
  op : Option (Op N D)
  now : ℚ
  spare : N → Bool

inductive Act (N D : Type*) where
  | run (name : N) (c : Container D)
  | list
  | remove (name : N)
  | update (name : N)
  /-- The next call of the operation: whether it takes effect, and whether it succeeds. -/
  | goes (effect ok : Bool)
  /-- The same, for the rename that makes a backup. -/
  | backsUp (backup : N) (effect ok : Bool)
  | probe (name : N)
  | vanish (name : N)
  | other (name : N) (there : Bool)
  | kill
  | clock (now : ℚ)

variable (s : State N D)

/-- A container of the name carries the label. -/
def State.managed (name : N) : Bool := (s.docker name).any Container.managed

/-- `list(all=True)`, and the deployments of the managed containers. -/
def State.observed (name : N) : Option (Option D) :=
  match s.docker name with
  | some c => if c.managed then some c.deploymentId else none
  | none => none

def State.goOn (o : Op N D) : State N D := { s with op := some o }

/-- The operation returns or raises, and the lock is released. -/
def State.ends : State N D := { s with op := none }

/-- A write of the ledger, and what the operation does after it. -/
def State.write (ledger : Ledger N D) (next : Option (Op N D)) : State N D :=
  { s with ledger := ledger, op := next }

def State.set (name : N) (c : Option (Container D)) : State N D :=
  { s with docker := update s.docker name c }

/-- A call of Docker, which takes effect or does not. -/
def State.call (effect : Bool) (name : N) (c : Option (Container D)) : State N D :=
  if effect then s.set name c else s

def stepOp (o : Op N D) (effect ok : Bool) : Option (State N D) :=
  match o with
  | .claims name c =>
    some (if ok then s.write (claim s.ledger s.now name c.deploymentId) (some (.creates name c))
      else s.ends)
  | .creates name c =>
    if effect ∧ (s.docker name).isSome ∨ ok ∧ ¬effect then none
    else
      some ((s.call effect name (some c)).goOn
        (if ok then .confirms name c.deploymentId else .looksUp name c))
  | .looksUp name c =>
    some (if ok then
        match s.docker name with
        | none => s.goOn (.releases name)
        | some e =>
          if e.managed then s.goOn (.confirms name (e.deploymentId <|> c.deploymentId))
          else s.goOn (.releases name)
      else s.ends)
  | .confirms name deploymentId =>
    some (if ok then s.write (confirm s.ledger s.now name deploymentId) none else s.ends)
  | .releases name => some (if ok then s.write (release s.ledger name) none else s.ends)
  | .inventory => some (if ok then s.goOn (.reconciles s.observed) else s.ends)
  | .reconciles observed =>
    some (if ok then s.write (reconcile s.ledger s.now observed) none else s.ends)
  | .finds name =>
    some (if ok then
        if (s.docker name).isSome then s.goOn (.removes name) else s.goOn (.releases name)
      else s.ends)
  | .removes name =>
    if ok ∧ ¬effect ∧ (s.docker name).isSome then none
    else
      let t := s.call effect name none
      some (if ok then t.goOn (.releases name) else t.ends)
  | .replaces name =>
    some (if ok then s.write (claim s.ledger s.now name none) (some (.stops name)) else s.ends)
  | .stops name => some (if ok then s.goOn (.renames name) else s.ends)
  | .renames _ => none
  | .recreates name backup =>
    if effect ∧ (s.docker name).isSome ∨ ok ∧ ¬effect then none
    else
      some ((s.call effect name (some ⟨true, none⟩)).goOn
        (if ok then .settles name backup else .undoes name backup))
  | .settles name backup =>
    some (s.goOn (if ok then .adopts name backup else .undoes name backup))
  | .adopts name backup =>
    some (if ok then s.write (confirm s.ledger s.now name none) (some (.drops name backup))
      else s.goOn (.undoes name backup))
  | .drops name backup =>
    if ok ∧ ¬effect ∧ (s.docker backup).isSome then none
    else
      let t := s.call effect backup none
      some (if ok then t.ends else t.goOn (.undoes name backup))
  | .undoes name backup => some ((s.call effect name none).goOn (.restores name backup))
  | .restores name backup =>
    if effect ∧ ((s.docker backup).isNone ∨ (s.docker name).isSome) ∨ ok ∧ ¬effect then none
    else
      let t := (s.call effect name (s.docker backup)).call effect backup none
      some (if ok then t.goOn (.confirms name none) else t.ends)

/-- No container and no claim has the name. -/
def State.isNew (name : N) : Bool := (s.docker name).isNone && (s.ledger name).isNone

def step : Act N D → Option (State N D)
  | .run name c => if s.op.isNone then some (s.goOn (.claims name c)) else none
  | .list => if s.op.isNone then some (s.goOn .inventory) else none
  | .remove name => if s.op.isNone then some (s.goOn (.finds name)) else none
  | .update name => if s.op.isNone then some (s.goOn (.replaces name)) else none
  | .goes effect ok =>
    match s.op with
    | some o => stepOp s o effect ok
    | none => none
  | .backsUp backup effect ok =>
    match s.op with
    | some (.renames name) =>
      if s.isNew backup = false ∨ effect ∧ s.managed name = false ∨ ok ∧ ¬effect then none
      else
        let t := if effect then
            { (s.set backup (s.docker name)).set name none with
              spare := update s.spare backup true }
          else s
        some (if ok then t.goOn (.recreates name backup) else t.ends)
    | _ => none
  | .probe name =>
    if s.isNew name then
      some { s.set name (some ⟨true, none⟩) with spare := update s.spare name true }
    else none
  | .vanish name => some (s.set name none)
  | .other name there =>
    if s.managed name then none
    else some (s.set name (if there then some ⟨false, none⟩ else none))
  | .kill => some s.ends
  | .clock now => some { s with now := now }

def init (now : ℚ) : State N D := ⟨fun _ => none, fun _ => none, none, now, fun _ => false⟩

/-! ## What holds in a run -/

/-- Every container that carries the label has a claim. -/
def Kept : Prop := ∀ name, s.managed name → (s.ledger name).isSome

/-- The step drops a claim. -/
def Dropped (t : State N D) (name : N) : Prop :=
  (s.ledger name).isSome ∧ t.ledger name = none

/-- No managed container is renamed for its replacement, and no helper probes a volume. -/
def Orderly (_ : State N D) : Act N D → Prop
  | .backsUp _ effect _ => effect = false
  | .probe _ => False
  | _ => True

end SparkDeck.Ownership
