import SparkDeck.Lib.Effect
import Mathlib.Data.List.Basic

/-!
# Recreating a container with edited settings

`update_container_settings` of `manager.py` (20407-20690) with the calls of Docker and of
`ManagedWorkloadLedger` that it makes (`sparkdeck/workload_ownership.py`). What is checked of the
settings, and the configuration they make, is an input (`Request.config`); so is the outcome of every
call (`Calls`): a call that fails has no effect. Of the ledger only the state of the container's claim
is kept. `World.detached` is the variable `detached_networks`; `World.broken` is not in the source: a
call of the rollback has failed.
-/

namespace SparkDeck.Recreate

inductive Status where
  | created
  | running
  | restarting
  | paused
  | exited
  | dead

/-- `was_running` -/
def Status.isUp : Status → Bool
  | .running => true
  | .restarting => true
  | .paused => true
  | _ => false

structure Container (κ : Type) where
  id : ℕ
  name : String
  config : κ
  status : Status
  networks : List String

inductive Claim where
  | pending
  | active

structure World (κ : Type) where
  containers : List (Container κ)
  /-- The state of the claim on the container's name. -/
  claim : Option Claim
  detached : List String
  broken : Bool

/-- What the replacement shows when it is looked at. -/
structure Observation where
  running : Bool
  healthy : Bool
  unhealthy : Bool
  /-- The second is over. -/
  expired : Bool
  /-- It can be looked at again. -/
  reloaded : Bool

/-- The loop that watches the replacement start. -/
def observed : List Observation → Bool
  | [] => true
  | o :: rest =>
    if !o.running then false
    else if o.unhealthy then false
    else if o.healthy || o.expired then true
    else o.reloaded && observed rest

/-- Which calls succeed. -/
structure Calls where
  get : Bool
  reload : Bool
  stop : Bool
  rename : Bool
  /-- The network at a place of the list. -/
  disconnect : ℕ → Bool
  create : Bool
  find : Bool
  start : Bool
  refresh : Bool
  observations : List Observation
  summary : Bool
  remove : Bool
  /-- The calls of the rollback. -/
  lookup : Bool
  discard : Bool
  backup : Bool
  restore : Bool
  connect : ℕ → Bool
  restart : Bool

structure Request (κ : Type) where
  name : String
  backup : String
  /-- The id that Docker gives the replacement. -/
  fresh : ℕ
  /-- `none`: the settings are refused. -/
  config : Option κ
  managed : Bool
  /-- `HostConfig.NetworkMode` -/
  mode : String

variable {κ : Type}

/-- A program over Docker and the ledger. -/
abbrev Op (κ α : Type) := EStateM Unit (World κ) α

/-! ## Docker -/

/-- A call of Docker. -/
def call (ok : Bool) (f : World κ → World κ) : Op κ Unit := fun w =>
  if ok then .ok () (f w) else .error () w

/-- `containers.get(name)` -/
def lookup (ok : Bool) (name : String) : Op κ (Container κ) := fun w =>
  match w.containers.find? (·.name = name) with
  | some c => if ok then .ok c w else .error () w
  | none => .error () w

def World.modify (w : World κ) (id : ℕ) (f : Container κ → Container κ) : World κ :=
  { w with containers := w.containers.map fun c => if c.id = id then f c else c }

def World.named (w : World κ) (name : String) : Bool := w.containers.any (·.name = name)

def stop (ok : Bool) (id : ℕ) : Op κ Unit :=
  call ok (·.modify id fun c => { c with status := .exited })

def start (ok : Bool) (id : ℕ) : Op κ Unit :=
  call ok (·.modify id fun c => { c with status := .running })

/-- A name that is taken is refused. -/
def rename (ok : Bool) (id : ℕ) (name : String) : Op κ Unit := fun w =>
  call (ok && !w.named name) (·.modify id fun c => { c with name := name }) w

def create (ok : Bool) (c : Container κ) : Op κ Unit := fun w =>
  call (ok && !w.named c.name) (fun w => { w with containers := w.containers ++ [c] }) w

def remove (ok : Bool) (id : ℕ) : Op κ Unit :=
  call ok fun w => { w with containers := w.containers.filter (·.id ≠ id) }

def disconnect (ok : Bool) (id : ℕ) (network : String) : Op κ Unit :=
  call ok (·.modify id fun c => { c with networks := c.networks.erase network })

def connect (ok : Bool) (id : ℕ) (network : String) : Op κ Unit :=
  call ok (·.modify id fun c => { c with networks := c.networks ++ [network] })

/-! ## The ledger -/

/-- `claim` -/
def claim (managed : Bool) : Op κ Unit :=
  call true fun w => if managed then { w with claim := some .pending } else w

/-- `confirm` -/
def confirm (managed : Bool) : Op κ Unit :=
  call true fun w => if managed then { w with claim := some .active } else w

/-! ## The replacement -/

/-- `if c:` -/
def onlyIf (c : Bool) (m : Op κ Unit) : Op κ Unit := if c then m else pure ()

/-- `preserve_networks` -/
def preserves (mode : String) (networks : List String) : Bool :=
  !networks.isEmpty && mode ≠ "host" && mode ≠ "none" && !mode.startsWith "container:"

/-- The backup leaves its networks, from the `k`-th on. -/
def detach (calls : Calls) (id : ℕ) : ℕ → List String → Op κ Unit
  | _, [] => pure ()
  | k, network :: rest => do
    disconnect (calls.disconnect k) id network
    call true fun w => { w with detached := w.detached ++ [network] }
    detach calls id (k + 1) rest

/-- A call of the rollback whose failure does not end it. -/
def attempt (m : Op κ Unit) : Op κ Unit :=
  tryCatch m fun _ => call true fun w => { w with broken := true }

/-- The backup joins its networks again. -/
def reattach (calls : Calls) (id : ℕ) : ℕ → List String → Op κ Unit
  | _, [] => pure ()
  | k, network :: rest => do
    attempt (connect (calls.connect k) id network)
    reattach calls id (k + 1) rest

/-- The protected region. -/
def replace (calls : Calls) (req : Request κ) (original : Container κ) (config : κ) : Op κ Unit := do
  onlyIf (preserves req.mode original.networks) (detach calls original.id 0 original.networks)
  create calls.create ⟨req.fresh, req.name, config, .created, original.networks⟩
  call calls.find id
  onlyIf original.status.isUp (start calls.start req.fresh)
  call calls.refresh id
  onlyIf original.status.isUp (call (observed calls.observations) id)
  call calls.summary id
  confirm req.managed
  remove calls.remove original.id

/-- Whatever bears the name is removed, if it is there and can be. -/
def discard (calls : Calls) (name : String) : Op κ Unit := fun w =>
  if w.named name then
    attempt (do
      let c ← lookup calls.lookup name
      remove calls.discard c.id) w
  else .ok () w

/-- A call of the rollback whose failure ends it. -/
def require {α : Type} (m : Op κ α) : Op κ α :=
  tryCatch m fun _ => do
    call true fun w => { w with broken := true }
    throw ()

/-- The handler of the region. -/
def rollback (calls : Calls) (req : Request κ) (up : Bool) : Op κ Unit := do
  discard calls req.name
  let backup ← require (lookup calls.backup req.backup)
  require (rename calls.restore backup.id req.name)
  let w ← get
  reattach calls backup.id 0 w.detached
  onlyIf up (attempt (start calls.restart backup.id))
  confirm req.managed
  throw ()

/-- `replace_locked` -/
def replaceLocked (calls : Calls) (req : Request κ) (original : Container κ) (config : κ) :
    Op κ Unit := do
  claim req.managed
  onlyIf original.status.isUp (stop calls.stop original.id)
  rename calls.rename original.id req.backup
  tryCatch (replace calls req original config) fun _ => rollback calls req original.status.isUp

/-- `update_container_settings` -/
def updateContainerSettings (calls : Calls) (req : Request κ) : Op κ Unit := do
  let original ← lookup calls.get req.name
  call calls.reload id
  match req.config with
  | some config => replaceLocked calls req original config
  | none => throw ()

/-! ## What is claimed -/

/-- A container is as it was, but that it runs again where it was paused or restarting. -/
structure Alike (c c' : Container κ) : Prop where
  id : c'.id = c.id
  name : c'.name = c.name
  config : c'.config = c.config
  up : c'.status.isUp = c.status.isUp
  networks : c'.networks.Perm c.networks

/-- The containers and the claim are as they were. -/
structure Restored (w w' : World κ) : Prop where
  containers : List.Forall₂ Alike w.containers w'.containers
  claim : w'.claim = w.claim

/-- One container bears the name, and it has the new configuration; the original is gone. -/
structure Replaced (req : Request κ) (original : Container κ) (w : World κ) : Prop where
  replacement : ∃ c, w.containers.filter (·.name = req.name) = [c] ∧
    some c.config = req.config ∧ (original.status.isUp → c.status = .running)
  gone : ∀ c ∈ w.containers, c.id ≠ original.id ∧ c.name ≠ req.backup

/-- The original is there, under its name or that of the backup. -/
def Kept (req : Request κ) (original : Container κ) (w : World κ) : Prop :=
  ∃ c ∈ w.containers, c.id = original.id ∧ (c.name = req.name ∨ c.name = req.backup)

/-- What is claimed of a call. -/
def Transactional (calls : Calls) (req : Request κ) (original : Container κ) (w : World κ) :
    Prop :=
  match updateContainerSettings calls req w with
  | .ok _ w' => Replaced req original w'
  | .error _ w' => Restored w w' ∨ w'.broken ∧ Kept req original w'

/-- Docker has one container of a name and of an id, and the new name and id are new. -/
structure Fits (req : Request κ) (original : Container κ) (w : World κ) : Prop where
  named : w.containers.filter (·.name = req.name) = [original]
  ids : (w.containers.map (·.id)).Nodup
  backup : ∀ c ∈ w.containers, c.name ≠ req.backup
  names : req.backup ≠ req.name
  fresh : ∀ c ∈ w.containers, c.id ≠ req.fresh
  detached : w.detached = []
  broken : w.broken = false

/-- How many networks the backup leaves before a call fails. -/
def Calls.left (calls : Calls) (n : ℕ) : ℕ := ((List.range n).takeWhile calls.disconnect).length

/-- How many networks the backup has left when the region ends. -/
def leaves (calls : Calls) (req : Request κ) (original : Container κ) : ℕ :=
  if preserves req.mode original.networks then calls.left original.networks.length else 0

/-- The replacement was created. -/
def creates (calls : Calls) (req : Request κ) (original : Container κ) : Bool :=
  (!preserves req.mode original.networks ||
    decide (calls.left original.networks.length = original.networks.length)) && calls.create

/-- No call of the region fails. -/
def completes (calls : Calls) (req : Request κ) (original : Container κ) : Bool :=
  creates calls req original && calls.find && (!original.status.isUp || calls.start) &&
    calls.refresh && (!original.status.isUp || observed calls.observations) && calls.summary &&
    calls.remove

/-- No call of the rollback fails. -/
def undoes (calls : Calls) (req : Request κ) (original : Container κ) : Bool :=
  (!creates calls req original || calls.lookup && calls.discard) && calls.backup &&
    calls.restore && (List.range (leaves calls req original)).all calls.connect &&
    (!original.status.isUp || calls.restart)

/-- A claim is `pending` from the start of the call on. -/
def claimIs (req : Request κ) (w : World κ) (claim : Claim) : Prop :=
  req.managed → w.claim = some claim

/-- What the code does not see to: the container runs again and the ledger's claim is as it was when
the original could not be stopped or renamed, and the claim was active where the region fails. -/
def Sound (calls : Calls) (req : Request κ) (original : Container κ) (w : World κ) : Prop :=
  (calls.get && calls.reload && req.config.isSome) = false ∨
  (if original.status.isUp && !calls.stop then claimIs req w .pending
    else if !calls.rename then original.status.isUp = false ∧ claimIs req w .pending
    else completes calls req original = true ∨ undoes calls req original = false ∨
      claimIs req w .active)

end SparkDeck.Recreate
