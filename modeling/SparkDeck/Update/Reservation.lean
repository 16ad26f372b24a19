import SparkDeck.Lib.Transition
import SparkDeck.Update.Record

/-!
# The transfer reservation of the updater

What `_run_cluster`, `start_local`, `_start_after_transfers`, `_launch_local_helper`, `close` and
`_reconciled_agent_state` of `UpdateService` (`sparkdeck/updater.py`) do to the one reservation of
`virtual_nas`, and to the flags `_local_update_reserved` and `_cluster_update_reserved` that say who
has it.

The event loop runs the coroutines: what is between two awaits is not interleaved with another
coroutine, but with a worker thread that reads the agent status. The thread holds
`_agent_state_lock` from `read` to `clear`; the rollout reserves and releases without it, and so
does the operation that fails before its helper is launched, so these go by single steps. Readings
on the loop (`overview`, `start_local`, `close`) are one step, and so is what has the lock there.

An operation of this process has a target that the process does not serve; the state file may be one
that the last process left, with helpers that still run. A call may raise, or be cancelled, at any
await. Deadlines and the phases of a rollout are left out. That a state file cannot be read or
written by a status reading is left out as well.
-/

namespace SparkDeck.Update.Reservation

/-- A detached helper, and what it wrote last. -/
structure Helper where
  phase : Phase
  alive : Bool
  /-- This process launched it. -/
  own : Bool

/-- It may still write. -/
def Helper.active (h : Helper) : Bool := h.alive && !h.phase.isFinal

/-- What a helper may write after what it wrote last. -/
def follows : Phase → Phase → Bool
  | .accepted, .staging => true
  | .accepted, .failed => true
  | .staging, .restarting => true
  | .staging, .failed => true
  | .staging, .rollingBack => true
  | .staging, .recoveryRequired => true
  | .restarting, .succeeded => true
  | .restarting, .rollingBack => true
  | .restarting, .recoveryRequired => true
  | .rollingBack, .rolledBack => true
  | .rollingBack, .recoveryRequired => true
  | _, _ => false

/-- `system-update-agent.json`: whether the target is what the process serves, and the helper. -/
structure File where
  phase : Phase
  served : Bool
  helper : Option ℕ

/-- `_run_cluster` -/
inductive Pc where
  | idle
  | preflight
  /-- Between `reserve_update` and `_cluster_update_reserved = True`. -/
  | reserving
  | workers
  /-- It awaits `start_local`. -/
  | starting
  /-- The `finally` block: whether it reserved, and handed the reservation over. -/
  | leaving (reserved handed : Bool)
  | looking (reserved handed : Bool)
  | ending
  deriving DecidableEq

/-- It awaits something, or is not there. -/
def Pc.isAway : Pc → Bool
  | .idle => true
  | .preflight => true
  | .workers => true
  | .starting => true
  | _ => false

/-- It has reserved, and is not in its `finally` block. -/
def Pc.holds : Pc → Bool
  | .reserving => true
  | .workers => true
  | .starting => true
  | .leaving reserved _ => reserved
  | _ => false

/-- `_start_after_transfers` -/
inductive AgentPc where
  | none
  | waiting
  /-- The launch has raised. -/
  | broken
  /-- The failure is on file. -/
  | failing
  deriving DecidableEq

def AgentPc.isAway : AgentPc → Bool
  | .none => true
  | .waiting => true
  | _ => false

/-- A thread that has read a final state, and that the local update is reserved. -/
inductive Reader where
  /-- It looks at `_cluster_update_reserved` next. -/
  | found
  /-- It is in `end_update`. -/
  | ending
  | fetched (generation : ℕ)
  | posted (generation : ℕ)
  | skipped
  deriving DecidableEq

structure State where
  generation : ℕ
  reserved : Bool
  /-- `_end_update_on_loop` calls that were posted to the loop. -/
  posted : List ℕ
  /-- `_local_update_reserved` -/
  localReserved : Bool
  /-- `_cluster_update_reserved` -/
  clusterReserved : Bool
  file : File
  helpers : List Helper
  rollout : Pc
  agent : AgentPc
  /-- `start_local` has `_agent_lock` and passed its guard; whether the rollout called it. -/
  starter : Option Bool
  reader : Option Reader
  /-- A local operation of this process was reserved for. -/
  own : Bool
  /-- The agent status was read since anything was under way. -/
  read : Bool

inductive Act where
  | rollout
  /-- The preflights end the rollout, or it is cancelled there. -/
  | leavePreflight
  | reserve
  | mark
  | leaveWorkers
  | callLocal
  /-- `start_local` is cancelled while it waits for its lock. -/
  | abandon
  | unmark
  | look
  | finish
  | begin (byRollout kept : Bool)
  | giveUp
  | upToDate
  | reserveLocal
  /-- It raises after it reserved, before or after it wrote. -/
  | reserveFails (wrote : Bool)
  | launch
  /-- The launch raises, before or after the helper was started. -/
  | launchFails (spawned : Bool)
  | fail
  | settle
  /-- The task is cancelled before its first instruction. -/
  | vanish
  /-- A thread reads; on Windows a replaced helper may be kept. -/
  | read (kept : Bool)
  | lookCluster
  | fetch
  | post
  | clear
  | readOnLoop (kept : Bool)
  | deliver
  | writes (i : ℕ) (p : Phase)
  | dies (i : ℕ)

variable (s : State)

/-- No coroutine is between two awaits. -/
def State.isIdle : Bool := s.rollout.isAway && s.agent.isAway

/-- `_helper_alive` -/
def State.helperAlive : Bool :=
  match s.file.helper with
  | some i => (s.helpers[i]?).any (·.alive)
  | none => false

/-- The agent has nothing to do. -/
def State.quiet : Bool :=
  decide (s.rollout = .idle) && decide (s.agent = .none) &&
    (s.file.phase.isFinal || decide (s.file.phase = .idle))

/-- What was read counts as long as nothing is under way. -/
def State.tidy : State := if s.quiet then s else { s with read := false }

/-- `_reconciled_agent_state_locked`, up to the release. -/
def State.reconciled (kept : Bool) : File :=
  let f := s.file
  if f.phase = .pendingTransfers then
    if s.agent = .none then { f with phase := .failed } else f
  else if f.phase = .accepted ∨ f.phase = .staging ∨ f.phase = .restarting then
    let installed := decide (f.phase = .restarting) && f.served
    if installed && s.helperAlive && kept then f
    else if installed then { f with phase := .succeeded }
    else if s.helperAlive then f
    else { f with phase := .failed }
  else f

/-- `end_update` on the loop. -/
def State.endUpdate : State := { s with reserved := false }

/-- `end_update`, unless the rollout has the reservation. -/
def State.endUnlessCluster : State := if s.clusterReserved then s else s.endUpdate

/-- A reading on the loop. -/
def State.readOnLoop (kept : Bool) : State :=
  let s' := { s with file := s.reconciled kept, read := true }
  if s'.file.phase.isFinal && s'.localReserved then
    { s'.endUnlessCluster with localReserved := false }
  else s'

/-- The phases in which `start_local` refuses. -/
def guarded : Phase → Bool
  | .pendingTransfers => true
  | .accepted => true
  | .staging => true
  | .restarting => true
  | _ => false

/-- `start_local` returns or raises, and the rollout goes on if it called it. -/
def State.answer (byRollout handed : Bool) : State :=
  { s with
    starter := none
    rollout := if byRollout then .leaving true handed else s.rollout }

/-- `start_local` up to its preflight. -/
def State.begin (byRollout kept : Bool) : State :=
  let s' := s.readOnLoop kept
  if guarded s'.file.phase then s'.answer byRollout false else { s' with starter := some byRollout }

/-- `reserve_update` -/
def State.reserveUpdate : State := { s with generation := s.generation + 1, reserved := true }

def State.stepRollout : Act → Option State
  | .rollout => if s.rollout = .idle ∧ s.isIdle then some { s with rollout := .preflight } else none
  | .leavePreflight =>
    if s.rollout = .preflight ∧ s.isIdle then some { s with rollout := .leaving false false }
    else none
  | .reserve =>
    if s.rollout = .preflight ∧ s.isIdle then some { s.reserveUpdate with rollout := .reserving }
    else none
  | .mark =>
    if s.rollout = .reserving then some { s with rollout := .workers, clusterReserved := true }
    else none
  | .leaveWorkers =>
    if s.rollout = .workers ∧ s.isIdle then some { s with rollout := .leaving true false } else none
  | .callLocal =>
    if s.rollout = .workers ∧ s.isIdle then some { s with rollout := .starting } else none
  | .abandon =>
    if s.rollout = .starting ∧ s.starter ≠ some true ∧ s.isIdle then
      some { s with rollout := .leaving true false }
    else none
  | .unmark =>
    match s.rollout with
    | .leaving reserved handed =>
      some { s with rollout := .looking reserved handed, clusterReserved := false }
    | _ => none
  | .look =>
    match s.rollout with
    | .looking reserved handed =>
      some { s with
        rollout := if reserved && !handed && !s.localReserved then .ending else .idle }
    | _ => none
  | .finish => if s.rollout = .ending then some { s.endUpdate with rollout := .idle } else none
  | _ => none

def State.stepLocal : Act → Option State
  | .begin byRollout kept =>
    if s.starter = none ∧ s.isIdle ∧ s.reader = none ∧ (byRollout → s.rollout = .starting) then
      some (s.begin byRollout kept)
    else none
  | .giveUp =>
    match s.starter with
    | some b => if s.isIdle then some (s.answer b false) else none
    | none => none
  | .upToDate =>
    match s.starter with
    | some b =>
      if s.isIdle then some ({ s with file := ⟨.succeeded, true, none⟩ }.answer b false) else none
    | none => none
  | .reserveLocal =>
    match s.starter with
    | some b =>
      if s.isIdle ∧ s.reader = none ∧ s.agent = .none then
        some ({ s.reserveUpdate with
          localReserved := true
          file := ⟨.pendingTransfers, false, none⟩
          agent := .waiting
          own := true }.answer b true)
      else none
    | none => none
  | .reserveFails wrote =>
    match s.starter with
    | some b =>
      if s.isIdle ∧ s.reader = none ∧ s.agent = .none then
        some (({ s.reserveUpdate with
          localReserved := false
          file := if wrote then ⟨.pendingTransfers, false, none⟩ else s.file
          }.endUnlessCluster).answer b false)
      else none
    | none => none
  | .launch =>
    if s.agent = .waiting ∧ s.isIdle ∧ s.reader = none then
      some { s with
        agent := .none
        file := ⟨.accepted, false, some s.helpers.length⟩
        helpers := s.helpers ++ [⟨.accepted, true, true⟩] }
    else none
  | .launchFails spawned =>
    if s.agent = .waiting ∧ s.isIdle ∧ s.reader = none then
      some { s with
        agent := .broken
        file := ⟨.accepted, false, none⟩
        helpers := if spawned then s.helpers ++ [⟨.accepted, true, true⟩] else s.helpers }
    else none
  | .fail =>
    if s.agent = .broken ∨ s.agent = .waiting ∧ s.isIdle then
      some { s with agent := .failing, file := { s.file with phase := .failed } }
    else none
  | .settle =>
    if s.agent = .failing then
      some ({ s with agent := .none, localReserved := false }.endUnlessCluster)
    else none
  | .vanish =>
    if s.agent = .waiting ∧ s.isIdle then some { s with agent := .none } else none
  | _ => none

def State.stepReader : Act → Option State
  | .read kept =>
    if s.reader = none then
      let f := s.reconciled kept
      if f.phase.isFinal && s.localReserved then some { s with file := f, reader := some .found }
      else some { s with file := f, read := true }
    else none
  | .lookCluster =>
    if s.reader = some .found then
      some { s with reader := some (if s.clusterReserved then .skipped else .ending) }
    else none
  | .fetch =>
    if s.reader = some .ending then some { s with reader := some (.fetched s.generation) } else none
  | .post =>
    match s.reader with
    | some (.fetched g) => some { s with posted := s.posted ++ [g], reader := some (.posted g) }
    | _ => none
  | .clear =>
    match s.reader with
    | some (.posted _) => some { s with localReserved := false, reader := none, read := true }
    | some .skipped => some { s with localReserved := false, reader := none, read := true }
    | _ => none
  | .readOnLoop kept => if s.isIdle ∧ s.reader = none then some (s.readOnLoop kept) else none
  | .deliver =>
    match s.posted with
    | g :: rest =>
      if s.isIdle then
        some (if g = s.generation then { s.endUpdate with posted := rest }
          else { s with posted := rest })
      else none
    | [] => none
  | .writes i p =>
    match s.helpers[i]? with
    | some h =>
      if h.alive ∧ follows h.phase p then
        some { s with
          helpers := s.helpers.set i { h with phase := p }
          file := { s.file with phase := p } }
      else none
    | none => none
  | .dies i =>
    match s.helpers[i]? with
    | some h => some { s with helpers := s.helpers.set i { h with alive := false } }
    | none => none
  | _ => none

def step (s : State) (a : Act) : Option State :=
  ((s.stepRollout a).or ((s.stepLocal a).or (s.stepReader a))).map State.tidy

/-! ## What is claimed of every state -/

/-- Transfers are held off, and no end of that is on its way. -/
def State.kept : Prop := s.reserved ∧ s.generation ∉ s.posted

structure Held (s : State) : Prop where
  rollout : s.rollout.holds → s.kept
  pending : s.agent = .waiting → s.kept
  operation : s.own = true → s.file.helper.isSome = true → s.file.phase.isFinal = false → s.kept
  helper : ∀ h ∈ s.helpers, h.own → h.active → s.kept
  /-- Nothing is held off for ever. -/
  released : s.quiet = true → s.read = true → s.reserved = false ∨ s.generation ∈ s.posted

/-- The thread will not release the present reservation. -/
def neglects (generation : ℕ) : Option Reader → Bool
  | some (.fetched g) => decide (g ≠ generation)
  | some (.posted g) => decide (g ≠ generation)
  | some .skipped => true
  | _ => false

/-- No helper of an operation before is at work. -/
def State.settled : Prop :=
  (∀ h ∈ s.helpers, h.active = false) ∧ s.file.phase ≠ .rollingBack

/-- What nobody sees to: that no operation starts beside a helper that is at work; that a launch that
started the helper does not raise; and that no thread is about to end the reservation, or to leave
it, when the rollout makes it and when it looks whether it has to end it. -/
def Plain (s : State) : Act → Prop
  | .upToDate => s.settled
  | .reserveLocal => s.settled
  | .reserveFails _ => s.settled
  | .launchFails spawned => spawned = false
  | .reserve => s.reader ≠ some .ending
  | .lookCluster => s.rollout ≠ .reserving
  | .look => s.rollout = .looking true false → s.localReserved →
      neglects s.generation s.reader = false
  | _ => True

/-- A process that has just started. -/
structure Init (s : State) : Prop where
  reserved : s.reserved = false
  posted : s.posted = []
  localReserved : s.localReserved = false
  clusterReserved : s.clusterReserved = false
  rollout : s.rollout = .idle
  agent : s.agent = .none
  starter : s.starter = none
  reader : s.reader = none
  own : s.own = false
  read : s.read = false
  helpers : ∀ h ∈ s.helpers, h.own = false

end SparkDeck.Update.Reservation
