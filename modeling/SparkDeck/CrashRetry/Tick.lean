import Mathlib.Data.List.Sort
import Mathlib.Data.List.Dedup
import Mathlib.Algebra.Order.Ring.Rat

/-!
# Automatic crash restart

Model of `_crash_retry_state`, `_crash_retry_instances`, `_deployment_crash_retry_tick` and
`_restart_crashed_deployment` (`manager.py:12051-12219`), of what `_deployment_action_locked` records
of a start or a stop (`manager.py:10332-10582`), and of the status that `get_state` publishes
(`manager.py:25594-25612`).

Every table of the bookkeeping is keyed by deployment, and no step reads another deployment's
entries; so a `Watch` is all that is kept for one deployment, its record included, and the world has
a watch for each id. The tick has no await: one step for all deployments, with one reading of the
clock. A restart task awaits each start it makes, so each start is a step, at the moment its action
records its intent; what the action's later awaits do to the saved status is a step of its own
(`saved`), and the wait for the action lock is only a matter of order.

An id is not used again after its deployment is removed. A start that recreates the deployment under
a new id is a removal and a creation. Launch recovery, which may take a record out and put it back
before it has ever served, is not modelled.
-/

namespace SparkDeck.CrashRetry

/-- A status, as far as the tick and the actions tell them apart. -/
inductive Status where
  | running
  | ready
  | stopped
  | error
  | degraded
  | other
  deriving DecidableEq

def Status.serving : Status → Bool
  | .running | .ready => true
  | _ => false

structure Member where
  /-- `instance_id`. -/
  group : ℕ
  /-- `desired_state == "stopped"`. -/
  stopped : Bool
  /-- Its status is `stopped` or `error`. -/
  down : Bool

structure Deployment where
  /-- `mode == "grouped_sharded"`. -/
  grouped : Bool
  /-- `instances`. -/
  instances : ℕ
  members : List Member
  /-- `desired_state == "stopped"`. -/
  stopped : Bool
  /-- The saved status. -/
  status : Status
  /-- `launch_settings_error`. -/
  launchError : Bool

/-- `DEPLOYMENT_CRASH_RETRY_LIMIT`. -/
def crashRetryLimit : ℕ := 3

/-- `DEPLOYMENT_CRASH_RETRY_DELAY_SECONDS`. -/
def crashRetryDelay : ℚ := 5

/-- What an action is about: a group, or the whole deployment. -/
abbrev Target := Option ℕ

namespace Deployment

variable (d : Deployment)

/-- `_crash_retry_instances`. -/
def crashRetryInstances : Option (List ℕ) :=
  if d.grouped then
    let intended := ((d.members.map Member.group).dedup.filter fun i =>
      !d.members.any fun m => m.group == i && m.stopped).insertionSort (· ≤ ·)
    if intended = [] then none else some intended
  else some []

/-- `_grouped_target_instance` takes the target of a start or a stop. -/
def Accepts : Target → Prop
  | none => True
  | some i => d.grouped ∧ i < d.instances

instance (t : Target) : Decidable (d.Accepts t) := by
  cases t <;> unfold Accepts <;> infer_instance

/-- The intent recorded for a group: that of every other group follows its actual state. -/
def recordGroup (i : ℕ) (stop : Bool) : Deployment :=
  { d with
    members := d.members.map fun m =>
      if m.group = i then { m with stopped := stop }
      else
        let down := m.down || d.status == .stopped
        { m with down := down, stopped := d.stopped || m.stopped || down }
    stopped := d.stopped && stop }

/-- The intent recorded for a stop. -/
def recordStop : Target → Deployment
  | some i => { d.recordGroup i true with stopped := d.stopped }
  | none =>
    { d with
      stopped := true
      status := .other
      members := if d.grouped then d.members.map fun m => { m with stopped := true } else d.members }

/-- The intent recorded for a start. -/
def recordStart : Target → Deployment
  | some i => d.recordGroup i false
  | none => { d with stopped := false, members := d.members.map fun m => { m with stopped := false } }

end Deployment

/-- An entry of the runtime table. -/
structure Observed where
  status : Option Status
  definite : Bool

/-- A restart task, by the starts it has left. -/
abbrev Task := List Target

/-- What is kept for one deployment. -/
structure Watch where
  /-- Its record; `none` before it is created and after it is removed. -/
  deployment : Option Deployment
  attempts : Option ℕ
  stamp : Option ℚ
  healthySeen : Bool
  inflight : Bool
  runtime : Option Observed
  /-- The restart tasks that are not done. -/
  tasks : List Task
  /-- History: the id has been used. -/
  used : Bool
  /-- History: when the restarts since it was last observed serving were started, latest first. -/
  episode : List ℚ
  /-- History: it was observed serving since it was created or last stopped by its user. -/
  served : Bool
  /-- History: the stops recorded for its user and not followed by a start of the user. -/
  standing : Target → Bool
  /-- History: a restart was started though it was not observed serving. -/
  unserved : Bool
  /-- History: a start was issued though a stop of its target stood. -/
  overridden : Bool

namespace Watch

def unused : Watch :=
  ⟨none, none, none, false, false, none, [], false, [], false, fun _ => false, false, false⟩

variable (w : Watch)

/-- `observed.get("status") or deployment.get("status")`. -/
def reading (d : Deployment) : Status := (w.runtime.bind Observed.status).getD d.status

/-- History: after an observation, the status read is that of a serving deployment. -/
def note : Watch :=
  match w.deployment with
  | some d => if (w.reading d).serving then { w with episode := [], served := true } else w
  | none => w

/-- The record is dead-looking, and the tick is its only owner. -/
def eligible (d : Deployment) : Bool :=
  match w.reading d with
  | .stopped | .error => true
  | .degraded => d.members.length < 2
  | _ => false

/-- The delay since the last restart is over. `if last` skips a stamp that is zero. -/
def waited (now : ℚ) : Bool :=
  match w.stamp with
  | none => true
  | some last => last = 0 ∨ crashRetryDelay ≤ now - last

/-- The restart task is created. -/
def spawn (now : ℚ) (instances : List ℕ) : Watch :=
  { w with
    attempts := some (w.attempts.getD 0 + 1)
    stamp := some now
    inflight := true
    tasks := w.tasks ++ [if instances = [] then [none] else instances.map some]
    episode := now :: w.episode
    unserved := w.unserved || !w.served }

/-- The body of the tick's loop, for a deployment with record `d`. -/
def visit (d : Deployment) (now : ℚ) : Watch :=
  if d.stopped then { w with attempts := none, stamp := none, healthySeen := false }
  else if (w.reading d).serving then
    { w with healthySeen := true, attempts := none, stamp := none }
  else if w.eligible d = false ∨ w.healthySeen = false then w
  else if w.runtime.any fun o => !o.definite then w
  else if d.launchError then w
  else if w.inflight then w
  else
    match d.crashRetryInstances with
    | none => w
    | some instances =>
      if crashRetryLimit ≤ w.attempts.getD 0 then w
      else if w.waited now = false then w
      else w.spawn now instances

/-- The tick's sweep, for an id that has no record. -/
def sweep : Watch :=
  if w.attempts.isSome ∨ w.stamp.isSome ∨ w.runtime.isSome then
    { w with attempts := none, stamp := none, runtime := none, inflight := false,
             healthySeen := false }
  else w

/-- `_deployment_crash_retry_tick`. -/
def tick (now : ℚ) : Watch :=
  match w.deployment with
  | some d => w.visit d now
  | none => w.sweep

/-! ## Actions -/

/-- Every group of the deployment, or the deployment as a whole, stands stopped by its user. -/
def AllStopped (d : Deployment) : Prop :=
  if d.grouped then ∀ m ∈ d.members, w.standing (some m.group)
  else w.standing none

instance (d : Deployment) : Decidable (w.AllStopped d) := by
  unfold AllStopped
  infer_instance

/-- The user's stop is recorded. -/
def stop (t : Target) : Option Watch :=
  match w.deployment with
  | none => none
  | some d =>
    if d.Accepts t then
      let w' := { w with
        deployment := some (d.recordStop t)
        standing := fun x => w.standing x || (t = none ∨ x = t) }
      some { w' with served := w.served && !(w'.AllStopped d) }
    else none

/-- The user's start is recorded. -/
def start (t : Target) : Option Watch :=
  match w.deployment with
  | none => none
  | some d =>
    if d.Accepts t then
      some { w with
        deployment := some (d.recordStart t)
        standing := fun x => w.standing x && !(t = none ∨ x = none ∨ x = t) }
    else none

/-- A launch or an action writes the saved status, and which members it found down. It is what is
read only as long as nothing is published. -/
def saved (status : Status) (down : Member → Bool) : Option Watch :=
  match w.deployment with
  | none => none
  | some d =>
    let w' := { w with deployment := some { d with
      status := status, members := d.members.map fun m => { m with down := down m } } }
    some (if (w.runtime.bind Observed.status).isSome then w' else w'.note)

def settings (error : Bool) : Option Watch :=
  match w.deployment with
  | none => none
  | some d => some { w with deployment := some { d with launchError := error } }

/-- What a start of a restart task comes to. -/
inductive Result where
  /-- It raises before it records anything. -/
  | refused
  | failed
  | ok

/-- The task is done, and its callback runs. -/
def done (k : ℕ) : Watch := { w with tasks := w.tasks.eraseIdx k, inflight := false }

/-- Restart task `k` goes on after a start that was ok. -/
def proceed (k : ℕ) (rest : List Target) : Watch :=
  match rest with
  | [] => w.done k
  | t :: rest => { w with tasks := w.tasks.set k (t :: rest) }

/-- Restart task `k` makes its next start. -/
def issue (k : ℕ) (r : Result) : Option Watch :=
  match w.tasks[k]? with
  | some (t :: rest) =>
    let w' := { w with overridden := w.overridden || w.standing t }
    match w.deployment, r with
    | none, _ | some _, .refused => some (w'.done k)
    | some d, .failed => some ({ w' with deployment := some (d.recordStart t) }.done k)
    | some d, .ok => some ({ w' with deployment := some (d.recordStart t) }.proceed k rest)
  | _ => none

/-- The deployment is created, or loaded with what its record says. -/
def create (d : Deployment) : Option Watch :=
  if w.used then none
  else
    some { unused with
      deployment := some d
      used := true
      standing := fun
        | none => d.stopped
        | some i => d.members.all fun m => m.group ≠ i ∨ m.stopped }.note

end Watch

/-- The tables, by deployment, and the clock when last read. -/
structure World (D : Type*) where
  watch : D → Watch
  clock : ℚ

inductive Label (D : Type*) where
  | create (id : D) (d : Deployment)
  | remove (id : D)
  /-- `get_state` publishes what it observed. -/
  | observe (id : D) (o : Observed)
  | saved (id : D) (status : Status) (down : Member → Bool)
  /-- The saved launch settings are found invalid, or corrected. -/
  | settings (id : D) (error : Bool)
  | stop (id : D) (t : Target)
  | start (id : D) (t : Target)
  | tick (now : ℚ)
  | issue (id : D) (k : ℕ) (r : Watch.Result)
  /-- A restart task is cancelled. -/
  | cancel (id : D) (k : ℕ)

variable {D : Type*} [DecidableEq D]

namespace World

def init : World D := ⟨fun _ => .unused, 0⟩

variable (g : World D)

def put (id : D) (w : Watch) : World D := { g with watch := Function.update g.watch id w }

end World

/-- A reading of `time.monotonic()` is positive and not below the last one. -/
def step (g : World D) : Label D → Option (World D)
  | .create id d => ((g.watch id).create d).map (g.put id)
  | .remove id =>
    if (g.watch id).deployment.isSome then
      some (g.put id { g.watch id with deployment := none })
    else none
  | .observe id o => some (g.put id { g.watch id with runtime := some o }.note)
  | .saved id status down => ((g.watch id).saved status down).map (g.put id)
  | .settings id error => ((g.watch id).settings error).map (g.put id)
  | .stop id t => ((g.watch id).stop t).map (g.put id)
  | .start id t => ((g.watch id).start t).map (g.put id)
  | .tick now =>
    if 0 < now ∧ g.clock ≤ now then some ⟨fun id => (g.watch id).tick now, now⟩ else none
  | .issue id k r => ((g.watch id).issue k r).map (g.put id)
  | .cancel id k =>
    if k < (g.watch id).tasks.length then some (g.put id ((g.watch id).done k)) else none

end SparkDeck.CrashRetry
