import Mathlib.Algebra.Group.Int.Defs
import Mathlib.Algebra.Group.Nat.Defs
import SparkDeck.Cli.Args

/-!
# The layout of engine groups

`_grouped_sharded_topology`, the layout that `_preflight_deployment_launch` plans,
`_build_grouped_sharded_members`, `_create_deployment`, `add_deployment_instance` with
`_instance_group_node_count` and `_convert_sharded_deployment_to_grouped`,
`_recreate_grouped_instance`, and what `_deployment_action_locked` does to the layout
(`manager.py`).

One saved deployment is followed. Where an operation leaves two, as a relaunch does, the event says
which of them is followed. What the nodes say, and whether anything else refuses a launch, is in
`Cluster`; how removals and creations of containers end is in the event. The engines that take no
groups are left out, and so are the names, serve ports, marks and states of members. `args` and `sgTp`
of a member are not saved: they are the payload its container is created with.
-/

namespace SparkDeck.Groups

open Cli

inductive Engine where
  | vllm
  | sglang
  deriving DecidableEq

inductive Mode where
  | single
  | replicated
  | sharded
  | grouped
  deriving DecidableEq

inductive Desired where
  | running
  | stopped
  deriving DecidableEq

/-- A fabric address. Of its form it is used that it is not read as an option. -/
structure Address where
  text : String
  plain : isDash text = false

instance : DecidableEq Address := fun a b =>
  if h : a.text = b.text then
    isTrue (by
      cases a
      cases b
      cases h
      rfl)
  else isFalse fun he => h (he ▸ rfl)

/-- A field that has to be a positive integer. -/
inductive Field where
  | absent
  | number (n : ℤ)
  /-- Not an integral number. -/
  | other

/-- The body of a launch. -/
structure Body where
  engine : Engine
  mode : Mode
  nodeIds : List String
  extraArgs : List String
  /-- `tensor_parallel_size` -/
  tensor : Field
  instances : Field
  /-- `sg_tp_size`, validated. -/
  sgTp : Option ℕ

/-- `launch_settings` -/
structure Launch where
  mode : Mode
  nodeIds : List String
  extraArgs : List String
  tensor : Option ℕ
  instances : Option ℕ
  sgTp : Option ℕ

structure Member where
  node : String
  rank : ℕ
  /-- `instance_id` -/
  group : Option ℕ
  fabricIp : Address
  args : List String
  sgTp : Option ℕ

structure Deployment where
  engine : Engine
  mode : Mode
  instances : Option ℕ
  nodeIds : List String
  members : List Member
  launch : Option Launch
  desired : Desired
  settingsDirty : Bool

/-- What the nodes say, and what else a launch is checked for. -/
structure Cluster where
  ready : List String → Bool
  fabricIp : String → Option Address

/-- `list(dict.fromkeys(l))` -/
def fromkeys : List String → List String
  | [] => []
  | a :: l => a :: (fromkeys l).filter fun b => decide (b ≠ a)

/-- `_positive_int_field`; `none` where it raises. -/
def positiveInt : Field → Option (Option ℕ)
  | .absent => some none
  | .number n => if 1 ≤ n then some (some n.toNat) else none
  | .other => none

/-- `_grouped_sharded_topology` -/
def groupedShardedTopology (tensor instances : Field) (count : ℕ) : Option (ℕ × ℕ) :=
  (positiveInt tensor).bind fun t => (positiveInt instances).bind fun i =>
    if t.getD 1 < 2 then none
    else if count = t.getD 1 * i.getD 1 then some (t.getD 1, i.getD 1) else none

/-- `_with_vllm_prompt_token_details` -/
def withVllmPromptTokenDetails (args : List String) : List String :=
  if args.any fun a => key a = "--enable-prompt-tokens-details" ||
      key a = "--no-enable-prompt-tokens-details" then args
  else args ++ ["--enable-prompt-tokens-details"]

/-- The arguments of the user, as they go into a payload. -/
def userArgs : Engine → List String → List String
  | .vllm, args => withVllmPromptTokenDetails args
  | .sglang, args => args

/-- The options of vLLM that belong to the coordinator. -/
def vllmNames : List String :=
  ["--distributed-executor-backend", "--nnodes", "--node-rank", "--master-addr", "--master-port",
    "--tensor-parallel-size", "-tp", "--pipeline-parallel-size", "-pp"]

/-- The options of SGLang that belong to the coordinator. -/
def sglangNames : List String := ["--nnodes", "--node-rank", "--dist-init-addr", "--tp-size"]

/-- The arguments of a rank: `tp` and `pp` are the sizes vLLM is told. -/
def rankArgs (engine : Engine) (user : List String) (nnodes rank : ℕ) (master : Address) (port : ℕ)
    (tp pp : ℕ) : List String :=
  match engine with
  | .vllm =>
    (withoutCliOptions vllmNames user).filter (fun a => decide (a ≠ "--headless")) ++
      (["--distributed-executor-backend", "mp", "--nnodes", toString nnodes,
        "--node-rank", toString rank, "--master-addr", master.text,
        "--master-port", toString port, "--tensor-parallel-size", toString tp,
        "--pipeline-parallel-size", toString pp] ++ if 0 < rank then ["--headless"] else [])
  | .sglang =>
    withoutCliOptions sglangNames user ++
      ["--nnodes", toString nnodes, "--node-rank", toString rank,
        "--dist-init-addr", master.text ++ ":" ++ toString port]

/-- One group of `_build_grouped_sharded_members`. -/
def buildGroup (engine : Engine) (user : List String) (fabrics : String → Address) (T group : ℕ)
    (nodes : List String) : List Member :=
  nodes.mapIdx fun rank node =>
    { node := node
      rank := rank
      group := some group
      fabricIp := fabrics node
      args := rankArgs engine user T rank (fabrics (nodes.headD "")) (29501 + group) T 1
      sgTp := match engine with
        | .vllm => none
        | .sglang => some T }

/-- `_build_grouped_sharded_members`: group `g` has the nodes from `g * T` on. -/
def buildGroupedShardedMembers (engine : Engine) (user : List String) (fabrics : String → Address)
    (nodeIds : List String) (T instances first : ℕ) : List Member :=
  (List.range instances).flatMap fun group =>
    buildGroup engine user fabrics T (first + group) ((nodeIds.drop (group * T)).take T)

/-- The members of the other layouts (`_create_deployment`). -/
def buildMembers (engine : Engine) (mode : Mode) (user : List String) (fabrics : String → Address)
    (nodeIds : List String) (layout : ℕ × ℕ) (sgTp : Option ℕ) : List Member :=
  nodeIds.mapIdx fun rank node =>
    { node := node
      rank := rank
      group := none
      fabricIp := fabrics node
      args :=
        if mode = .sharded then
          rankArgs engine user nodeIds.length rank (fabrics (nodeIds.headD "")) 29501 layout.1
            layout.2
        else user
      sgTp := sgTp }

/-- What the preflight returns. -/
structure Plan where
  engine : Engine
  mode : Mode
  nodeIds : List String
  extraArgs : List String
  /-- Hosts of a group, and groups. -/
  topology : ℕ × ℕ
  layout : ℕ × ℕ
  sgTp : Option ℕ
  fabrics : String → Address

/-- A number among the arguments. `pyInt` is `int`, of a string. -/
def cliInt (pyInt : String → Option ℤ) (args names : List String) : Option ℤ :=
  (cliOption args names).bind pyInt

/-- `vllm_parallel_layout`, of a sharded deployment on `n` nodes; `none` where it is refused. -/
def parallelLayout (pyInt : String → Option ℤ) (args : List String) (n : ℕ) : Option (ℕ × ℕ) :=
  match cliInt pyInt args ["--tensor-parallel-size", "-tp"],
      cliInt pyInt args ["--pipeline-parallel-size", "-pp"] with
  | none, none => some (1, n)
  | tp, pp =>
    if tp.getD 1 < 1 ∨ pp.getD 1 < 1 ∨ (tp.getD 1 * pp.getD 1) % n ≠ 0 then none
    else some ((tp.getD 1).toNat, (pp.getD 1).toNat)

/-- The layout that `_preflight_deployment_launch` plans; `none` where it raises. -/
def preflight (pyInt : String → Option ℤ) (body : Body) (c : Cluster) : Option Plan :=
  let all := fromkeys (if body.nodeIds.isEmpty then ["local"] else body.nodeIds)
  let nodes := if body.mode = .single then all.take 1 else all
  let plan (topology layout : ℕ × ℕ) (sgTp : Option ℕ) : Plan :=
    { engine := body.engine
      mode := body.mode
      nodeIds := nodes
      extraArgs := body.extraArgs
      topology := topology
      layout := layout
      sgTp := sgTp
      fabrics := fun node => (c.fabricIp node).getD ⟨"", rfl⟩ }
  if body.mode ≠ .single ∧ nodes.length < 2 then none
  else if c.ready nodes = false then none
  else if (body.mode = .sharded ∨ body.mode = .grouped) ∧
      nodes.any (fun node => (c.fabricIp node).isNone) then none
  else
    match body.mode with
    | .grouped =>
      (groupedShardedTopology body.tensor body.instances nodes.length).map fun topology =>
        plan topology (1, 1) (if body.engine = .sglang then some topology.1 else body.sgTp)
    | .sharded =>
      match body.engine with
      | .vllm => (parallelLayout pyInt body.extraArgs nodes.length).map fun layout =>
          plan (1, 1) layout body.sgTp
      | .sglang =>
        if (body.sgTp.getD nodes.length) % nodes.length = 0 then
          some (plan (1, 1) (1, 1) (some (body.sgTp.getD nodes.length)))
        else none
    | _ => some (plan (1, 1) (1, 1) body.sgTp)

/-- The record `_create_deployment` appends. -/
def Plan.bare (p : Plan) : Deployment where
  engine := p.engine
  mode := p.mode
  instances := if p.mode = .grouped then some p.topology.2 else none
  nodeIds := p.nodeIds
  members := []
  launch := none
  desired := .running
  settingsDirty := false

/-- The members it builds. -/
def Plan.members (p : Plan) : List Member :=
  if p.mode = .grouped then
    buildGroupedShardedMembers p.engine (userArgs p.engine p.extraArgs) p.fabrics p.nodeIds
      p.topology.1 p.topology.2 0
  else
    buildMembers p.engine p.mode (userArgs p.engine p.extraArgs) p.fabrics p.nodeIds p.layout p.sgTp

/-- The record with its members and its launch settings. -/
def Plan.deployment (p : Plan) : Deployment :=
  { p.bare with
    members := p.members
    launch := some
      { mode := p.mode
        nodeIds := p.nodeIds
        extraArgs := userArgs p.engine p.extraArgs
        tensor := if p.mode = .grouped then some p.topology.1 else none
        instances := if p.mode = .grouped then some p.topology.2 else none
        sgTp := p.sgTp } }

def Field.ofOption : Option ℕ → Field
  | none => .absent
  | some n => .number n

/-- `launch_body` of a relaunch. -/
def Launch.body (l : Launch) (engine : Engine) (nodes : List String) (mode : Option Mode) : Body where
  engine := engine
  mode := mode.getD l.mode
  nodeIds := if nodes.isEmpty then l.nodeIds else nodes
  extraArgs := l.extraArgs
  tensor := Field.ofOption l.tensor
  instances := Field.ofOption l.instances
  sgTp := l.sgTp

/-- How a relaunch ends, and which record is followed. -/
inductive Relaunched where
  /-- A member was not removed. -/
  | aborted
  /-- The new record is not created, or its members fail; the old one is followed. -/
  | original
  /-- The new record is refused after it was appended, and followed. -/
  | refused
  /-- The new record is followed. -/
  | replacement

/-- How the launch of one more group ends. -/
inductive Added where
  /-- No port is found, or a node cannot keep to the bandwidth. -/
  | refused
  | failed
  | launched
  deriving DecidableEq

inductive Event where
  /-- `deployment_action(start)` that relaunches, or the resume of an interrupted launch. -/
  | relaunch (nodes : List String) (mode : Option Mode) (c : Cluster) (how : Relaunched)
  | add (nodes : List String) (c : Cluster) (how : Added)
  /-- `_recreate_grouped_instance`; `created` if no rank failed, and then `dirty` if a member bears
  another fingerprint of the settings. -/
  | recreate (group : ℕ) (c : Cluster) (removed created dirty : Bool)
  /-- Any other start or stop, of one group or of all. -/
  | act (start : Bool) (group : Option ℕ)

/-- The relaunch branch. -/
def relaunch (pyInt : String → Option ℤ) (d : Deployment) (nodes : List String)
    (mode : Option Mode) (c : Cluster) (how : Relaunched) : Option Deployment :=
  d.launch.bind fun l => (preflight pyInt (l.body d.engine nodes mode) c).map fun p =>
    match how with
    | .aborted => { d with desired := .running }
    | .original => { d with desired := .running, members := [] }
    | .refused => p.bare
    | .replacement => p.deployment

/-- `_instance_group_node_count` -/
def instanceGroupNodeCount (d : Deployment) : ℕ :=
  match d.launch.bind (·.tensor) with
  | some tensor => if 2 ≤ tensor then tensor else d.members.length
  | none => d.members.length

/-- `world_tp` of `add_deployment_instance`. -/
def worldTp (pyInt : String → Option ℤ) (d : Deployment) : ℤ :=
  let args := (d.launch.map (·.extraArgs)).getD []
  let tp := (cliInt pyInt args ["--tensor-parallel-size", "-tp"]).getD 0
  match d.engine with
  | .vllm => tp
  | .sglang => match d.launch.bind (·.sgTp) with
    | some n => n
    | none => tp

/-- `_convert_sharded_deployment_to_grouped` -/
def convertShardedDeploymentToGrouped (d : Deployment) (T : ℕ) : Deployment :=
  { d with
    mode := .grouped
    instances := some 2
    members := d.members.map fun m => { m with group := some 0 }
    launch := d.launch.map fun l =>
      { l with mode := .grouped, tensor := some T, instances := some 2 } }

/-- `max(instance_ids) + 1` -/
def nextInstance (d : Deployment) : ℕ :=
  (d.members.map fun m => m.group.getD 0).foldr max 0 + 1

/-- The checks of `add_deployment_instance`. -/
def addable (pyInt : String → Option ℤ) (d : Deployment) (requested : List String) (c : Cluster) :
    Bool :=
  decide (d.mode = .sharded ∨ d.mode = .grouped) &&
    decide (requested ≠ [] ∧ "" ∉ requested) && !d.members.isEmpty &&
    decide (2 ≤ instanceGroupNodeCount d) &&
    decide (worldTp pyInt d ≠ 0 → worldTp pyInt d = instanceGroupNodeCount d) &&
    decide (d.mode = .sharded → worldTp pyInt d ≠ 0) && !d.settingsDirty &&
    decide (d.desired ≠ .stopped) && decide (requested.length = instanceGroupNodeCount d) &&
    (d.members.all fun m => decide (m.node ∉ requested)) && c.ready requested &&
    requested.all fun node => (c.fabricIp node).isSome

/-- The record is taken back to the layout it had (`add_deployment_instance`). -/
def takeBack (before d : Deployment) (next : ℕ) (requested : List String) : Deployment :=
  let nodeIds := d.nodeIds.filter fun node => decide (node ∉ requested)
  if before.mode = .sharded then
    { d with
      mode := before.mode
      instances := before.instances
      nodeIds := nodeIds
      members := d.members.map fun m => { m with group := none }
      launch := d.launch.map fun l =>
        { l with
          mode := ((before.launch.map (·.mode)).getD l.mode)
          nodeIds := nodeIds
          instances :=
            if before.instances.isNone then none else before.launch.bind (·.instances)
          tensor := before.launch.bind (·.tensor) } }
  else
    { d with
      instances := some next
      nodeIds := nodeIds
      launch := d.launch.map fun l => { l with nodeIds := nodeIds, instances := some next } }

/-- `add_deployment_instance`; `strip` is `str.strip`. -/
def addDeploymentInstance (pyInt : String → Option ℤ) (strip : String → String) (d : Deployment)
    (nodes : List String) (c : Cluster) (how : Added) : Option Deployment :=
  let requested := fromkeys (nodes.map strip)
  if addable pyInt d requested c then
    let T := instanceGroupNodeCount d
    let d' := if d.mode = .sharded then convertShardedDeploymentToGrouped d T else d
    match how with
    | .refused => some d'
    | _ =>
      let next := nextInstance d'
      let args := (d'.launch.map (·.extraArgs)).getD []
      let specs := buildGroupedShardedMembers d.engine (userArgs d.engine args)
        (fun node => (c.fabricIp node).getD ⟨"", rfl⟩) requested T 1 next
      let merged := fromkeys (d'.nodeIds ++ requested)
      let grown := { d' with
        members := d'.members ++ specs
        instances := some (next + 1)
        nodeIds := merged
        launch := d'.launch.map fun l => { l with instances := some (next + 1), nodeIds := merged } }
      if how = .launched then some grown
      else some (takeBack d { grown with members := d'.members } next requested)
  else none

/-- The members of a group by rank. -/
def groupMembers (d : Deployment) (group : ℕ) : List Member :=
  (d.members.filter fun m => decide (m.group.getD 0 = group)).mergeSort
    fun a b => decide (a.rank ≤ b.rank)

/-- By group, and by rank in a group. -/
def Member.le (a b : Member) : Bool :=
  decide (a.group.getD 0 < b.group.getD 0) ||
    (decide (a.group.getD 0 = b.group.getD 0) && decide (a.rank ≤ b.rank))

/-- `_recreate_grouped_instance` -/
def recreateGroupedInstance (pyInt : String → Option ℤ) (d : Deployment) (group : ℕ) (c : Cluster)
    (removed created dirty : Bool) : Option Deployment :=
  d.launch.bind fun l =>
    (groupedShardedTopology (Field.ofOption l.tensor) (Field.ofOption l.instances)
      l.nodeIds.length).bind fun topology =>
      let selected := groupMembers d group
      if selected.map (·.rank) = List.range topology.1 ∧
          l.nodeIds = (d.members.mergeSort Member.le).map (·.node) then
        let body := { l.body d.engine (selected.map (·.node)) (some .grouped) with
          tensor := .number topology.1
          instances := .number 1 }
        (preflight pyInt body c).map fun p =>
          if removed then
            let specs := buildGroupedShardedMembers p.engine (userArgs p.engine p.extraArgs)
              p.fabrics p.nodeIds topology.1 1 group
            { d with
              members := d.members.map fun m =>
                if m.group.getD 0 = group then
                  (specs.find? fun spec => decide (spec.node = m.node)).getD m
                else m
              desired := if created then .running else d.desired
              settingsDirty := if created then d.settingsDirty && dirty else true }
          else { d with settingsDirty := true }
      else none

/-- A start or a stop without a relaunch, of one group or of all. -/
def act (d : Deployment) (start : Bool) (group : Option ℕ) : Deployment :=
  { d with
    desired :=
      if start then .running
      else match group with
        | none => .stopped
        | some _ => d.desired }

def step (pyInt : String → Option ℤ) (strip : String → String) (d : Deployment) :
    Event → Option Deployment
  | .relaunch nodes mode c how => relaunch pyInt d nodes mode c how
  | .add nodes c how => addDeploymentInstance pyInt strip d nodes c how
  | .recreate group c removed created dirty =>
    recreateGroupedInstance pyInt d group c removed created dirty
  | .act start group => some (act d start group)

end SparkDeck.Groups
