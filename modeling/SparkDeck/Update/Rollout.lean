import SparkDeck.Lib.Transition
import SparkDeck.Update.Record

/-!
# A cluster rollout

`start_cluster`, `_run_cluster`, `overview` and `close` of `UpdateService`
(`sparkdeck/updater.py`), over the file they share and what each has in memory. A task is cut where
it awaits and where it writes: between two awaits only the task that runs goes on, but the process
may die anywhere. What a node answers, or that it does not, is up to the node; time is left out,
and a deadline may pass at any poll.

A rollout's nodes are the local one and then the registered ones, as `cluster_node_liveness` lists
them. The local operation is seen as `_reconciled_agent_state` shows it. `planned` and `log` are
kept for the sake of what is proved: what the nodes were at when the rollout was made, and what
happened since.
-/

namespace SparkDeck.Update.Rollout

/-- A node as `overview` shows it. -/
structure Plan where
  name : String
  blockers : List String
  current : Option ℕ

def Plan.node (p : Plan) («local» : Bool) : Node :=
  ⟨p.name, «local», p.blockers, .pending, p.current, none⟩

/-- How a preflight ends. -/
inductive Preflight where
  | raised (e : String)
  | passed
  /-- What a worker answers. -/
  | status (blockers : List String) (capable : Bool)

/-- What is raised after a preflight. -/
def Preflight.error : Preflight → Option String
  | .raised e => some e
  | .passed => none
  | .status blockers capable =>
    if blockers ≠ [] then some ("; ".intercalate blockers)
    else if capable then none else some "One-time manual update required"

/-- What a worker answers to a poll. -/
structure Status where
  phase : Phase
  current : Option ℕ
  error : Option String
  deriving DecidableEq

/-- The local operation, and whether its helper runs. -/
structure Agent where
  phase : Phase
  target : Option ℕ
  error : Option String
  alive : Bool

/-- It is over. -/
def Agent.isFinal (a : Agent) : Bool := a.phase.isFailed || decide (a.phase = .succeeded)

inductive Pc where
  /-- `create_task` -/
  | created
  /-- Node `i` is looked at. -/
  | plan (i : ℕ)
  | preflight (i : ℕ)
  | transfers (todo : List ℕ)
  | next (todo : List ℕ)
  | request (i : ℕ) (todo : List ℕ)
  | poll (i : ℕ) (todo : List ℕ)
  | judge (i : ℕ) (todo : List ℕ) (st : Status)
  | controller
  | startLocal
  | over
  deriving DecidableEq

/-- It waits, or is over. -/
def Pc.isAway : Pc → Bool
  | .plan _ => false
  | .next _ => false
  | .judge .. => false
  | .controller => false
  | _ => true

/-- `_run_cluster`, and the dict it works on. -/
structure Task where
  record : Record
  pc : Pc

def Task.live (t : Task) : Bool := t.pc ≠ .over

/-- A call of `start_cluster`. -/
inductive Start where
  | queued
  | checking
  | over
  deriving DecidableEq

inductive Event where
  | refused (i : ℕ)
  | ready (i : ℕ)
  /-- The update request is sent. -/
  | asked (i : ℕ)
  | reported (i : ℕ) (revision : Option ℕ)
  /-- The controller starts its own update, with this on file. -/
  | controller (nodes : List Node)
  /-- `overview`: whether the task was live, the local operation over, and what is on file then. -/
  | read (live final : Bool) (after : Record)
  deriving DecidableEq

structure State where
  /-- `runtime_revision` -/
  revision : Option ℕ
  /-- The manager has a `virtual_nas`. -/
  nas : Bool
  closing : Bool
  disk : Record
  tasks : List Task
  holder : Option ℕ
  starts : List Start
  /-- Calls of `close` that wait, with `cluster_pending`. -/
  closers : List Bool
  planned : List (Option ℕ)
  log : List Event

inductive Act where
  | start
  | acquire (k : ℕ) (a : Agent)
  | create (k : ℕ) (target : ℕ) («local» : Plan) (workers : List Plan)
  | refuse (k : ℕ)
  /-- The task goes on to its next write or await. -/
  | run (k : ℕ)
  | preflighted (k : ℕ) (p : Preflight)
  | drained (k : ℕ)
  /-- The update request is answered, or raises. -/
  | posted (k : ℕ) (e : Option String)
  | polled (k : ℕ) (st : Status)
  /-- The deadline has passed, or a poll raises what is not a `RuntimeError`. -/
  | pollFails (k : ℕ) (e : String)
  | started (k : ℕ) (e : Option String)
  /-- A write fails, and then the last one or not. -/
  | fault (k : ℕ) (e : String) (saved : Bool)
  | cancelled (k : ℕ)
  | overview (a : Agent)
  | close
  | closed (k : ℕ)
  /-- The process is gone, and there is a new one. -/
  | restart (revision : Option ℕ)

variable (s : State)

/-- `_task` is not done. -/
def State.taskLive : Bool := (s.tasks.getLast?).any (·.live)

/-- No task is between two awaits. -/
def State.isIdle : Bool := s.tasks.all (·.pc.isAway)

def State.note (e : Event) : State := { s with log := e :: s.log }

def State.put (k : ℕ) (r : Record) (pc : Pc) : State := { s with tasks := s.tasks.set k ⟨r, pc⟩ }

/-- `_write` -/
def State.save (k : ℕ) (r : Record) (pc : Pc) : State := { s.put k r pc with disk := r }

/-- `_finish_cluster_state`, and the end of the task. -/
def State.finish (k : ℕ) (r : Record) : State := { s.put k r.finish .over with disk := r.finish }

/-- The workers that are ready. -/
def eligible (r : Record) : List ℕ :=
  (List.range r.nodes.length).filter fun i =>
    (r.nodes[i]?).any fun n => !n.local && decide (n.phase = .ready)

def localReady (r : Record) : Bool := r.nodes.any fun n => n.local && decide (n.phase = .ready)

/-- The nodes at phase `p` go to `q`. -/
def shift (p q : Phase) (r : Record) : Record :=
  { r with nodes := r.nodes.map fun n => if n.phase = p then { n with phase := q } else n }

/-- The preflights are done. -/
def State.prepare (k : ℕ) (r : Record) : State :=
  let todo := eligible r
  if todo = [] ∧ localReady r = false then s.finish k r
  else if s.nas then
    s.save k (shift .ready .pendingTransfers { r with phase := .pendingTransfers })
      (.transfers todo)
  else s.save k { r with phase := .updatingWorkers } (.next todo)

/-- The preflight of node `i` is over. -/
def State.preflighted (k i : ℕ) (r : Record) : Option String → State
  | none =>
    (s.save k (r.modify i fun n => { n with phase := .ready, error := none }) (.plan (i + 1))).note
      (.ready i)
  | some e => (s.save k (r.modify i (·.fail e)) (.plan (i + 1))).note (.refused i)

def State.plan (k i : ℕ) (r : Record) : State :=
  match r.nodes[i]? with
  | none => s.prepare k r
  | some n =>
    if n.current = r.target then
      s.put k (r.modify i fun n => { n with phase := .upToDate }) (.plan (i + 1))
    else if n.blockers ≠ [] then s.preflighted k i r (some ("; ".intercalate n.blockers))
    else s.put k r (.preflight i)

def State.next (k : ℕ) (r : Record) : List ℕ → State
  | [] => s.put k r .controller
  | i :: todo =>
    (s.save k (r.modify i fun n => { n with phase := .updating }) (.request i todo)).note (.asked i)

/-- Node `i` is failed, and the next one is on. -/
def State.failNode (k i : ℕ) (todo : List ℕ) (r : Record) (e : String) : State :=
  s.save k (r.modify i (·.fail e)) (.next todo)

/-- `e or default` -/
def orElse (e : Option String) (default : String) : String :=
  match e with
  | some t => if t = "" then default else t
  | none => default

def State.judge (k i : ℕ) (todo : List ℕ) (r : Record) (st : Status) : State :=
  if st.phase = .pendingTransfers then s.put k r (.poll i todo)
  else if st.phase = .succeeded ∧ st.current = r.target then
    s.put k (r.modify i fun n => { n with error := none }) (.next todo)
  else if st.phase.isFailed then s.failNode k i todo r (orElse st.error "Update failed")
  else s.put k r (.poll i todo)

def State.controller (k : ℕ) (r : Record) : State :=
  if localReady r then
    let r' := { r with phase := .updatingController }.modifyLocal fun n =>
      { n with phase := .updating }
    (s.save k r' .startLocal).note (.controller r'.nodes)
  else s.finish k r

/-- A task that was not away goes on. -/
def State.run (k : ℕ) (t : Task) : Option State :=
  match t.pc with
  | .created => some (s.put k t.record (.plan 0))
  | .plan i => some (s.plan k i t.record)
  | .next todo => some (s.next k t.record todo)
  | .judge i todo st => some (s.judge k i todo t.record st)
  | .controller => some (s.controller k t.record)
  | _ => none

/-- The local node is at the target. -/
def serve (revision : Option ℕ) (r : Record) : Record :=
  r.modifyLocal fun n => { n with phase := .succeeded, current := revision, error := none }

/-- What the process serves is what the local node reports. -/
def State.report (r : Record) : State :=
  match r.nodes.findIdx? (·.local) with
  | some i => s.note (.reported i s.revision)
  | none => s

/-- `start_local` returns. -/
def State.startedLocal (k : ℕ) (r : Record) : Option String → State
  | some e => s.finish k (r.modifyLocal (·.fail e))
  | none =>
    if s.revision = r.target then
      (s.report r).finish k (r.modifyLocal fun n => { n with phase := .succeeded, current := r.target })
    else s.put k r .over

/-- What an await of task `k` comes to. -/
def State.resume (k : ℕ) (t : Task) : Act → Option State
  | .preflighted _ p =>
    match t.pc with
    | .preflight i => some (s.preflighted k i t.record p.error)
    | _ => none
  | .drained _ =>
    match t.pc with
    | .transfers todo =>
      some (s.save k (shift .pendingTransfers .ready { t.record with phase := .updatingWorkers })
        (.next todo))
    | _ => none
  | .posted _ e =>
    match t.pc with
    | .request i todo =>
      match e with
      | none => some (s.put k t.record (.poll i todo))
      | some e => some (s.failNode k i todo t.record e)
    | _ => none
  | .polled _ st =>
    match t.pc with
    | .poll i todo =>
      some ((s.save k (t.record.modify i fun n =>
        { n with phase := st.phase, current := st.current, error := st.error })
        (.judge i todo st)).note (.reported i st.current))
    | _ => none
  | .pollFails _ e =>
    match t.pc with
    | .poll i todo => some (s.failNode k i todo t.record e)
    | _ => none
  | .started _ e =>
    match t.pc with
    | .startLocal => some (s.startedLocal k t.record e)
    | _ => none
  | .cancelled _ =>
    if s.closing ∧ t.live then some (s.put k t.record .over) else none
  | _ => none

/-- `except Exception` of `_run_cluster` -/
def State.fault (k : ℕ) (t : Task) (e : String) (saved : Bool) : Option State :=
  if t.live then
    let r := t.record.abort ("Rollout interrupted: " ++ e)
    if saved then some { s.put k r .over with disk := r } else some (s.put k r .over)
  else none

/-- What a rollout of which the task is gone comes to, when it was at the controller's own update. -/
def reconcileLocal (revision : Option ℕ) (a : Agent) (d : Record) : Record :=
  if a.phase = .succeeded ∧ revision = d.target ∧ a.target = d.target then
    (serve revision d).finish
  else if a.phase.isFailed then
    (d.modifyLocal fun n =>
      { n with
        phase := a.phase
        error := some (orElse a.error "Controller update failed")
        current := revision }).finish
  else if a.phase = .pendingTransfers then
    d.modifyLocal fun n => { n with phase := .pendingTransfers }
  else if a.alive then d
  else
    (d.modifyLocal fun n =>
      { n.fail "The local update helper was interrupted" with current := revision }).finish

/-- The reconciliation at the start of `overview`. -/
def reconcile (revision : Option ℕ) (live : Bool) (a : Agent) (d : Record) : Record :=
  if d.active && !live then
    if d.phase = .updatingController then reconcileLocal revision a d
    else if d.nodes = [] then
      { d with
        active := false
        phase := .failed
        error := some "The controller rollout task was interrupted" }
    else d.abort "The controller rollout task was interrupted"
  else if d.phase = .succeeded ∧ revision.isSome ∧ revision = d.target ∧
      a.phase = .succeeded ∧ a.target = d.target then serve revision d
  else d

def State.overview (a : Agent) : State :=
  let d := reconcile s.revision s.taskLive a s.disk
  { s.report s.disk with disk := d }.note (.read s.taskLive a.isFinal d)

/-- `start_cluster` has the lock. -/
def State.acquire (k : ℕ) (a : Agent) : State :=
  if s.disk.active then { s with starts := s.starts.set k .over }
  else { s.overview a with starts := s.starts.set k .checking, holder := some k }

/-- `start_cluster` makes the rollout and its task. -/
def State.create (k : ℕ) (target : ℕ) (nodes : List Node) : State :=
  let r : Record := ⟨true, .preflight, some target, nodes, none⟩
  { s with
    disk := r
    tasks := s.tasks ++ [⟨r, .created⟩]
    starts := s.starts.set k .over
    holder := none
    planned := nodes.map (·.current)
    log := [] }

/-- `close`, when the tasks are done. -/
def State.closed (k : ℕ) (pending : Bool) : State :=
  { s with
    closers := s.closers.eraseIdx k
    disk :=
      if pending && s.disk.active then s.disk.abort "Update interrupted by service shutdown"
      else s.disk }

def State.restart (revision : Option ℕ) : State :=
  { s with
    revision := revision
    closing := false
    tasks := []
    holder := none
    starts := []
    closers := [] }

/-- The task a step is about. -/
def Act.task : Act → Option ℕ
  | .preflighted k _ => some k
  | .drained k => some k
  | .posted k _ => some k
  | .polled k _ => some k
  | .pollFails k _ => some k
  | .started k _ => some k
  | .cancelled k => some k
  | _ => none

/-- A step of whatever else runs in the event loop. -/
def State.act : Act → Option State
  | .start => if s.closing then none else some { s with starts := s.starts ++ [.queued] }
  | .acquire k a =>
    if s.starts[k]? = some .queued ∧ s.holder = none then some (s.acquire k a) else none
  | .create k target l workers =>
    let nodes := l.node true :: workers.map (·.node false)
    if s.starts[k]? = some .checking ∧ s.closing = false ∧
        ¬ ∀ n ∈ nodes, n.current = some target then
      some (s.create k target nodes)
    else none
  | .refuse k =>
    if s.starts[k]? = some .checking then
      some { s with starts := s.starts.set k .over, holder := none }
    else none
  | .overview a => some (s.overview a)
  | .close => some { s with closing := true, closers := s.closers ++ [s.taskLive] }
  | .closed k =>
    match s.closers[k]? with
    | some pending =>
      if ∀ t ∈ s.tasks, t.live = false then some (s.closed k pending) else none
    | none => none
  | a =>
    match a.task with
    | some k =>
      match s.tasks[k]? with
      | some t => s.resume k t a
      | none => none
    | none => none

def step (s : State) : Act → Option State
  | .restart revision => some (s.restart revision)
  | .run k =>
    match s.tasks[k]? with
    | some t => if t.pc = .created → s.isIdle then s.run k t else none
    | none => none
  | .fault k e saved =>
    match s.tasks[k]? with
    | some t => s.fault k t e saved
    | none => none
  | a => if s.isIdle then s.act a else none

/-- No rollout yet. -/
def init (revision : Option ℕ) (nas : Bool) : State :=
  ⟨revision, nas, false, .empty, [], none, [], [], [], []⟩

/-! ## What is claimed of every state -/

structure Truthful (s : State) : Prop where
  /-- A rollout that succeeded has every node at its target. -/
  succeeded : s.disk.phase = .succeeded → ∀ (i : ℕ) (n : Node), s.disk.nodes[i]? = some n →
    s.planned[i]? = some s.disk.target ∨ .reported i s.disk.target ∈ s.log
  /-- None of them is failed. -/
  failures : s.disk.phase = .succeeded → ∀ n ∈ s.disk.nodes, n.isFailure = false
  refused : ∀ i : ℕ, .refused i ∈ s.log → .asked i ∉ s.log
  /-- The controller is last. -/
  last : ∀ nodes : List Node, .controller nodes ∈ s.log → ∀ (i : ℕ) (n : Node),
    nodes[i]? = some n → n.local = false → .ready i ∈ s.log → n.phase.isFinal = true
  /-- There is one rollout. -/
  one : ∀ (i j : ℕ) (t u : Task), s.tasks[i]? = some t → s.tasks[j]? = some u →
    t.live → u.live → i = j
  /-- An interrupted rollout ends with the next reading. -/
  ends : ∀ after : Record, .read false true after ∈ s.log →
    after.active = false ∧ ∀ n ∈ after.nodes, n.phase.isFinal = true

/-- The reading leaves a rollout as it is, though the local operation is over. -/
def State.stuck (a : Agent) : Bool :=
  s.disk.active && !s.taskLive && decide (s.disk.phase = .updatingController) &&
    decide (a.phase = .succeeded) && a.alive &&
    !(decide (s.revision = s.disk.target) && decide (a.target = s.disk.target))

/-- What no node may answer, and no reading may find: that a node is done and not at the target,
and that the helper of a local operation that is done still runs. -/
def Plain (s : State) : Act → Prop
  | .polled k st => st.phase.isCompleted → ∀ t ∈ s.tasks[k]?, st.current = t.record.target
  | .overview a => s.stuck a = false
  | _ => True

instance (s : State) : ∀ a, Decidable (Plain s a)
  | .polled _ _ => inferInstanceAs (Decidable (_ → ∀ _ ∈ _, _ = _))
  | .overview _ => inferInstanceAs (Decidable (_ = _))
  | .start => isTrue trivial
  | .acquire _ _ => isTrue trivial
  | .create .. => isTrue trivial
  | .refuse _ => isTrue trivial
  | .run _ => isTrue trivial
  | .preflighted _ _ => isTrue trivial
  | .drained _ => isTrue trivial
  | .posted _ _ => isTrue trivial
  | .pollFails _ _ => isTrue trivial
  | .started _ _ => isTrue trivial
  | .fault .. => isTrue trivial
  | .cancelled _ => isTrue trivial
  | .close => isTrue trivial
  | .closed _ => isTrue trivial
  | .restart _ => isTrue trivial

end SparkDeck.Update.Rollout
