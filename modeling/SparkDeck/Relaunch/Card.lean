import SparkDeck.Cli.Args

/-!
# Relaunching a deployment

The relaunch branch of `_deployment_action_locked`, `_resume_interrupted_deployments` with
`_resume_interrupted_deployment_locked`, and `create_deployment` with `_create_deployment`
(`manager.py`). The cluster action lock keeps the two operations apart, so at most one is in
progress (`Op`). `memory` is `self.deployments`, `file` what `_save_deployments` wrote last. What is
between two awaits is one step, but for the places where two saves are made without an await
between them: there the controller may be killed in between. A cancelled task gets its exception at
an await.

Containers are those that exist on their nodes or are being created there. A removal that reports
success, or a container that is already absent, has ended with the container gone.

Texts of errors and of status messages are left out, but for the one thing that is read of an error:
whether `_interrupted_launch_reconnect_error` finds one of its markers in it (`reconnect`). The
volumes that are reclaimed for Strata are left out; that the operation awaits it is not. A `uuid4` is
one that no record bears.
-/

namespace SparkDeck.Relaunch

inductive Status where
  | launching
  | recovering
  | starting
  | stopped
  | error
  /-- Any other. -/
  | other
  deriving DecidableEq

inductive Desired where
  | running
  | stopped
  deriving DecidableEq

structure Member (C : Type) where
  container : C
  recreatePending : Bool
  deriving DecidableEq

/-- What `_deployment_launch_settings` keeps; `rest` is what no part of the relaunch reads. -/
structure Settings (I κ : Type) where
  /-- `sparkdeck_record_id` -/
  recordId : Option I
  model : String
  engine : String
  nodeIds : List String
  mode : String
  extraArgs : List String
  rest : κ
  deriving DecidableEq

/-- A deployment, as it is saved. -/
structure Record (I C κ : Type) where
  id : I
  recordId : Option I
  /-- `launch_settings`, if it is a dictionary. -/
  settings : Option (Settings I κ)
  status : Status
  desired : Desired
  settingsDirty : Bool
  members : List (Member C)
  /-- `automation_run_id` -/
  run : Option I
  deriving DecidableEq

/-- What `deployment_action` is asked for beside the deployment, and whether
`_deployment_environment_drift` finds that the environment of a container has changed. -/
structure Request where
  nodeIds : List String
  relaunchMode : Option String
  modelRevision : Option String
  drift : Bool

variable {I C κ : Type}

/-- The condition of the relaunch branch. -/
def relaunches (r : Record I C κ) (req : Request) : Bool :=
  r.settingsDirty || !req.nodeIds.isEmpty || r.members.any (·.recreatePending) ||
    (req.drift && !r.members.isEmpty)

/-- The arguments with the revision asked for; a different explicit one is an error. -/
def reviseArgs (args : List String) : Option String → Option (List String)
  | none => some args
  | some revision =>
    match Cli.cliOption args ["--revision"] with
    | none => some (args ++ ["--revision", revision])
    | some previous => if previous = "" then some (args ++ ["--revision", revision])
      else if previous = revision then some args else none

/-- `launch_body`; `none` where the revision is refused. -/
def launchBody (s : Settings I κ) (req : Request) : Option (Settings I κ) :=
  (reviseArgs s.extraArgs req.modelRevision).map fun args =>
    { s with
      extraArgs := args
      nodeIds := if req.nodeIds.isEmpty then s.nodeIds else req.nodeIds
      mode := req.relaunchMode.getD s.mode }

/-- How an operation on a card ended. -/
inductive Answer (I : Type) where
  /-- It reported success: `new` takes the place of `old`. -/
  | replaced (old new : I) (card : Option I)
  /-- It did not, and `id` is left to try again. -/
  | kept (id : I) (card : Option I)
  deriving DecidableEq

inductive Kind (I C κ : Type) where
  | start
  /-- `token` is the `resume_token`, `old` the record as it was when it was taken out. -/
  | resume (token : I) (old : Record I C κ)
  deriving DecidableEq

/-- The operation in progress: what it works on, and the `launch_body`. -/
structure Task (I C κ : Type) where
  id : I
  kind : Kind I C κ
  body : Settings I κ
  deriving DecidableEq

/-- The `sparkdeck_record_id` of the body. -/
def Task.card (t : Task I C κ) : Option I := t.body.recordId

/-- What is left of the deployment it works on. -/
def Task.keep (t : Task I C κ) : Answer I := .kept t.id t.card

def Task.isStart (t : Task I C κ) : Bool :=
  match t.kind with
  | .start => true
  | .resume _ _ => false

/-- `automation_run_id` of the body. -/
def Task.run (t : Task I C κ) : Option I :=
  match t.kind with
  | .start => none
  | .resume token _ => some token

/-- The engine is Strata. -/
def Task.isStrata (t : Task I C κ) : Bool := decide (t.body.engine = "strata")

/-- Where the operation is. -/
inductive Op (I C κ : Type) where
  | idle
  /-- `_preflight_deployment_launch` of the relaunch. -/
  | checking (t : Task I C κ)
  /-- `selected_cluster_nodes` of the resume. -/
  | selecting (t : Task I C κ)
  /-- The members are removed. -/
  | removing (t : Task I C κ)
  /-- `_reclaim_aborted_strata_removals` -/
  | reclaiming (t : Task I C κ)
  /-- `create_deployment`, up to the end of its preflight. -/
  | accepting (t : Task I C κ)
  /-- The new record is saved without members. -/
  | appended (t : Task I C κ) (new : I)
  /-- The members and the settings of the new record are saved, and its members are created. -/
  | launching (t : Task I C κ) (new : I)
  /-- A member failed, and those that were created are removed. -/
  | rollingBack (t : Task I C κ) (new : I) (reconnect : Bool)
  /-- `create_deployment` of the relaunch has returned. -/
  | finishing (t : Task I C κ) (new : I)
  /-- `prune_strata_record_volumes`, after `create_deployment` has raised. -/
  | pruning (t : Task I C κ) (reconnect : Bool)
  deriving DecidableEq

structure State (I C κ : Type) where
  memory : List (Record I C κ)
  file : List (Record I C κ)
  containers : List C
  op : Op I C κ
  /-- Not in the source: how the last operation ended, and the cards whose replacement was accepted
  and failed in a relaunch. -/
  answer : Option (Answer I)
  attempts : List (Option I)

variable [DecidableEq I] [DecidableEq C]

/-- `self._deployment(deployment_id)` -/
def find (l : List (Record I C κ)) (id : I) : Option (Record I C κ) :=
  l.find? fun r => decide (r.id = id)

/-- The record with this id is changed. -/
def modify (l : List (Record I C κ)) (id : I) (f : Record I C κ → Record I C κ) :
    List (Record I C κ) :=
  l.map fun r => if r.id = id then f r else r

/-- The record with this id is taken out. -/
def drop (l : List (Record I C κ)) (id : I) : List (Record I C κ) :=
  l.filter fun r => decide (r.id ≠ id)

def Record.withStatus (status : Status) (r : Record I C κ) : Record I C κ :=
  { r with status := status }

/-- Memory changes and is saved. -/
def State.save (s : State I C κ) (l : List (Record I C κ)) : State I C κ :=
  { s with memory := l, file := l }

def State.goTo (s : State I C κ) (op : Op I C κ) : State I C κ := { s with op := op }

/-- The operation ends. -/
def State.finish (s : State I C κ) (a : Answer I) : State I C κ :=
  { s with op := .idle, answer := some a }

/-- The record that `_create_deployment` appends. -/
def Task.accepted (t : Task I C κ) (new : I) : Record I C κ where
  id := new
  recordId := t.body.recordId
  settings := none
  status := .launching
  desired := .running
  settingsDirty := false
  members := []
  run := t.run

/-- Its members and its `launch_settings`, once they are known. -/
def Record.fill (t : Task I C κ) (members : List (Member C)) (plan : Settings I κ)
    (r : Record I C κ) : Record I C κ :=
  { r with members := members, settings := some { plan with recordId := t.body.recordId } }

/-- The relaunch stops after a removal failed, or the resume does for good. -/
def State.aborted (s : State I C κ) (t : Task I C κ) : State I C κ :=
  (s.save (modify s.memory t.id (Record.withStatus (if t.isStart then .stopped else .error)))).finish
    t.keep

/-- The resume waits for a node to come back. -/
def State.deferred (s : State I C κ) (t : Task I C κ) (id : I) : State I C κ :=
  (s.save (modify s.memory id (Record.withStatus .recovering))).finish (.kept id t.card)

/-- The end of the handler around `create_deployment`. -/
def State.settle (s : State I C κ) (t : Task I C κ) (reconnect : Bool) : State I C κ :=
  match t.kind with
  | .start => s.aborted t
  | .resume token old =>
    match s.memory.find? fun r => decide (r.run = some token) with
    | some new => if reconnect then s.deferred t new.id else s.finish (.kept new.id t.card)
    | none =>
      (s.save (s.memory ++
        [old.withStatus (if reconnect then .recovering else .error)])).finish t.keep

/-- `create_deployment` raised. -/
def State.failed (s : State I C κ) (t : Task I C κ) (reconnect : Bool) : State I C κ :=
  if t.isStrata && (t.isStart || !reconnect) then s.goTo (.pruning t reconnect)
  else s.settle t reconnect

inductive Event (I C κ : Type) where
  /-- `deployment_action(id, "start")`, for a relaunch. -/
  | start (id : I) (req : Request)
  /-- `_resume_interrupted_deployment(id)` -/
  | resume (id token : I)
  /-- What is awaited returns. -/
  | done
  /-- What is awaited raises, or what is computed does. -/
  | raises (reconnect : Bool)
  /-- A container is removed. -/
  | removed (c : C)
  /-- A container is created. -/
  | created (c : C)
  /-- Every member is removed, or created, but for those that failed; `some` if there are any. -/
  | gathered (failure : Option Bool)
  /-- The preflight is passed and the new record gets its id. -/
  | accepted (new : I)
  /-- The members and the settings of the new record are known. -/
  | named (members : List (Member C)) (plan : Settings I κ)
  /-- The task is cancelled. -/
  | cancel
  /-- The controller is killed and started again. -/
  | kill

/-- The containers of a record are gone. -/
def State.cleared (s : State I C κ) (id : I) : Bool :=
  s.memory.all fun r => decide (r.id ≠ id) ||
    r.members.all fun m => decide (m.container ∉ s.containers)

/-- A record names the container. -/
def State.owns (s : State I C κ) (id : I) (c : C) : Bool :=
  s.memory.any fun r => decide (r.id = id) && r.members.any fun m => decide (m.container = c)

def State.withContainer (s : State I C κ) (c : C) : State I C κ :=
  { s with containers := c :: s.containers }

def State.withoutContainer (s : State I C κ) (c : C) : State I C κ :=
  { s with containers := s.containers.filter (· ≠ c) }

/-- `deployment_action`, up to the preflight. Without saved settings there is no launch body. -/
def State.startRelaunch (s : State I C κ) (id : I) (req : Request) : Option (State I C κ) :=
  (find s.memory id).bind fun r => r.settings.bind fun settings =>
    if relaunches r req then
      (launchBody settings req).map fun body =>
        (if req.drift then s.save (modify s.memory id (Record.withStatus .starting)) else s).goTo
          (.checking ⟨id, .start, body⟩)
    else none

/-- `_resume_interrupted_deployment_locked`, up to the selection of the nodes. -/
def State.startResume (s : State I C κ) (id token : I) : Option (State I C κ) :=
  (find s.memory id).bind fun r => r.settings.bind fun settings =>
    if (r.status = .launching ∨ r.status = .recovering) ∧ r.desired ≠ .stopped ∧
        ∀ x ∈ s.memory, x.run ≠ some token then
      let t : Task I C κ := ⟨id, .resume token r, { settings with recordId := r.recordId }⟩
      -- Without a model the settings are unavailable.
      if settings.model = "" then some (s.aborted t)
      else
        some ((s.save (modify s.memory id (Record.withStatus .recovering))).goTo (.selecting t))
    else none

/-- All members are removed. -/
def State.afterRemoval (s : State I C κ) (t : Task I C κ) : State I C κ :=
  match t.kind with
  | .start => (s.save (modify s.memory t.id fun r => { r with members := [] })).goTo (.accepting t)
  | .resume token old =>
    (s.save (drop s.memory t.id)).goTo
      (.accepting { t with kind := .resume token ((find s.memory t.id).getD old) })

/-- A member is not removed. -/
def State.removalFailed (s : State I C κ) (t : Task I C κ) (reconnect : Bool) : State I C κ :=
  if !t.isStart && reconnect then s.deferred t t.id
  else if t.isStrata then s.goTo (.reclaiming t)
  else s.aborted t

/-- All members are created. -/
def State.launched (s : State I C κ) (t : Task I C κ) (new : I) : State I C κ :=
  let s := s.save (modify s.memory new (Record.withStatus .starting))
  if t.isStart then s.goTo (.finishing t new) else s.finish (.replaced t.id new t.card)

/-- A member is not created. -/
def State.launchFailed (s : State I C κ) (t : Task I C κ) (new : I) (reconnect : Bool) :
    State I C κ :=
  { s with
    memory := modify s.memory new (Record.withStatus .error)
    op := .rollingBack t new reconnect }

/-- `create_deployment` is cancelled after the record was appended. -/
def State.interrupted (s : State I C κ) (t : Task I C κ) (new : I) : State I C κ :=
  (s.save (modify s.memory new (Record.withStatus .recovering))).finish
    (.kept (if t.isStart then t.id else new) t.card)

/-- The rollback of a failed launch is over. -/
def State.rolledBack (s : State I C κ) (t : Task I C κ) : State I C κ :=
  let s := s.save s.memory
  if t.isStart then { s with attempts := t.body.recordId :: s.attempts } else s

/-- What is left if `prune_strata_record_volumes` does not return. -/
def State.pruned (s : State I C κ) (t : Task I C κ) : Answer I :=
  match t.kind with
  | .start => t.keep
  | .resume token _ =>
    match s.memory.find? fun r => decide (r.run = some token) with
    | some new => .kept new.id t.card
    | none => t.keep

/-- A task is cancelled at an await. -/
def State.cancelled (s : State I C κ) : Option (State I C κ) :=
  match s.op with
  | .checking t => some (s.finish t.keep)
  | .selecting t => some (s.finish t.keep)
  | .removing t => some (s.finish t.keep)
  | .reclaiming t => some (s.finish t.keep)
  | .accepting t => some (s.finish t.keep)
  | .launching t new => some (s.interrupted t new)
  | .rollingBack t new _ => some (s.interrupted t new)
  | .pruning t _ => some (s.finish (s.pruned t))
  | _ => none

/-- What the operation in progress is left with if the controller is killed. -/
def State.left (s : State I C κ) : Option (Answer I) :=
  match s.op with
  | .idle => s.answer
  | .checking t => some t.keep
  | .selecting t => some t.keep
  | .removing t => some t.keep
  | .reclaiming t => some t.keep
  | .accepting t => some t.keep
  | .appended t _ => some t.keep
  | .launching t new => some (.kept (if t.isStart then t.id else new) t.card)
  | .rollingBack t new _ => some (.kept (if t.isStart then t.id else new) t.card)
  | .finishing t _ => some t.keep
  | .pruning t _ => some (s.pruned t)

/-- The controller starts from the file. -/
def State.killed (s : State I C κ) : State I C κ :=
  { s with memory := s.file, op := .idle, answer := s.left }

def step (s : State I C κ) : Event I C κ → Option (State I C κ)
  | .start id req =>
    match s.op with
    | .idle => s.startRelaunch id req
    | _ => none
  | .resume id token =>
    match s.op with
    | .idle => s.startResume id token
    | _ => none
  | .done =>
    match s.op with
    | .checking t =>
      some ((s.save (modify s.memory t.id fun r => { r with desired := .running })).goTo
        (.removing t))
    | .selecting t => some (s.goTo (.removing t))
    | .reclaiming t => some (s.aborted t)
    | .rollingBack t _ reconnect => some ((s.rolledBack t).failed t reconnect)
    | .finishing t new => some ((s.save (drop s.memory t.id)).finish (.replaced t.id new t.card))
    | .pruning t reconnect => some (s.settle t reconnect)
    | _ => none
  | .raises reconnect =>
    match s.op with
    | .checking t => some (s.finish t.keep)
    | .selecting t => some (if reconnect then s.deferred t t.id else s.aborted t)
    | .accepting t => some (s.failed t reconnect)
    | .appended t _ => some (s.failed t reconnect)
    | _ => none
  | .removed c =>
    match s.op with
    | .removing t => if s.owns t.id c then some (s.withoutContainer c) else none
    | .rollingBack _ new _ => if s.owns new c then some (s.withoutContainer c) else none
    | _ => none
  | .created c =>
    match s.op with
    | .launching _ new => if s.owns new c then some (s.withContainer c) else none
    | _ => none
  | .gathered failure =>
    match s.op, failure with
    | .removing t, none => if s.cleared t.id then some (s.afterRemoval t) else none
    | .removing t, some reconnect => some (s.removalFailed t reconnect)
    | .launching t new, none => some (s.launched t new)
    | .launching t new, some reconnect => some (s.launchFailed t new reconnect)
    | _, _ => none
  | .accepted new =>
    match s.op with
    | .accepting t =>
      if new ≠ t.id ∧ ∀ r ∈ s.memory, r.id ≠ new then
        some ((s.save (s.memory ++ [t.accepted new])).goTo (.appended t new))
      else none
    | _ => none
  | .named members plan =>
    match s.op with
    | .appended t new =>
      some ((s.save (modify s.memory new (Record.fill t members plan))).goTo (.launching t new))
    | _ => none
  | .cancel => s.cancelled
  | .kill => some s.killed

end SparkDeck.Relaunch
