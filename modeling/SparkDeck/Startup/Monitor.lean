import Mathlib.Algebra.Order.Field.Rat
import Mathlib.Data.List.Basic
import SparkDeck.Lib.Transition

/-!
# The startup probes of a node

`StartupBenchmarkMonitor` (`sparkdeck/startup_benchmark.py`), the consent of
`sparkdeck/storage.py`, and `add_benchmark_if_consented`, which records a sample. What is between two
awaits is one step.

* A tick takes its snapshot of the consent, awaits the inventory, and creates the tasks. The targets
  are an argument of that step: engines start and restart.
* Whether an engine is healthy, whether the hardware is busy, and whether a measurement is eligible
  are arguments too.
* A cancellation is asked for and then delivered at an await of the task. `wait_for` runs the probe in
  the task of the attempt (Python 3.12 on). A probe that is over in any way awaits the end of its
  stream (`closing`), which a cancellation can cut short.
* The stream of a probe is observed once, by a task that ends the observation, awaits the hardware,
  and records. The dispatch of the request activates the observation.
* `kill` is the end of the process, and the start of the next one.
* `log` is the history of the probes, newest first; it, `Attempt.disturbed`, the last component of
  `ticking` and `samples` are not state of the program. `disturbed` says that consent was withdrawn, or
  its generation changed, since the tick.
-/

namespace SparkDeck.Startup

open Function

variable {F : Type*} [DecidableEq F]

/-- `_RETRY_BACKOFF_BASE`, `_RETRY_BACKOFF_MAX`, `_RETRY_BACKOFF_MAX_EXPONENT` -/
def retryBackoffBase : ℚ := 60
def retryBackoffMax : ℚ := 3600
def retryBackoffMaxExponent : ℕ := 8

/-- How a probe ends that has no sample: it returns, it raises or times out, its task is cancelled,
or the process is killed. -/
inductive Outcome where
  | returned
  | failed
  | cancelled
  | killed
  deriving DecidableEq

/-- `_attempt` -/
inductive Stage where
  /-- `_healthy(target)` -/
  | checking
  /-- It awaits `_serial`. -/
  | queued
  /-- It has `_serial`, and awaits `targets()` and `_healthy(fresh)`. -/
  | fresh
  /-- `_benchmark` -/
  | probing
  /-- The `finally` of `_benchmark`. -/
  | closing (outcome : Outcome)
  | over
  deriving DecidableEq

structure Attempt (F : Type*) where
  fingerprint : F
  /-- The generation of the tick's snapshot. -/
  generation : ℕ
  stage : Stage
  cancelled : Bool
  /-- The done callback has run. -/
  popped : Bool
  /-- `observation["enabled"]` -/
  enabled : Bool
  /-- The observation is in `_community_active_observations`. -/
  active : Bool
  /-- The upstream is over, and the observation ended. -/
  streamed : Bool
  /-- `_record_usage` was called. -/
  observed : Bool
  /-- `observation["startup_recorded"]` -/
  recorded : Bool
  disturbed : Bool

inductive Event (F : Type*) where
  | dispatched (f : F) (t : ℚ)
  /-- With the deadline that the probe sets. -/
  | unsuccessful (f : F) (t : ℚ) (how : Outcome) (deadline : Option ℚ)

/-- The retry state of a fingerprint. -/
structure Retry where
  attempts : ℕ
  retryAfter : ℚ

structure State (F : Type*) where
  now : ℚ
  /-- `community_consent`, `community_consent_generation`, and whether there is a
  `telemetry_cluster_id`. -/
  enabled : Bool
  generation : ℕ
  cluster : Bool
  /-- The settings of `_seen_key` and of `_retry_key`. -/
  seen : F → Bool
  retry : F → Option Retry
  /-- `_retry_after` -/
  memory : F → Option ℚ
  /-- `_tasks` -/
  tasks : F → Option ℕ
  attempts : List (Attempt F)
  /-- The attempt that has `_serial`. -/
  lock : Option ℕ
  /-- The snapshot of a tick that awaits the inventory. -/
  ticking : Option (ℕ × Bool)
  /-- The samples, each with `disturbed`. -/
  samples : List (F × Bool)
  log : List (Event F)

inductive Act (F : Type*) where
  | tick
  | tickEnds (targets : List F)
  | tickFails
  | checked (i : ℕ) (healthy : Bool)
  | acquire (i : ℕ)
  | refreshed (i : ℕ) (ready : Bool)
  | activate (i : ℕ)
  | streamEnds (i : ℕ)
  | records (i : ℕ) (eligible : Bool)
  | returns (i : ℕ)
  /-- An exception or the timeout. -/
  | fails (i : ℕ)
  | deliver (i : ℕ)
  | closed (i : ℕ)
  | callback (i : ℕ)
  | cancelActive
  /-- `set_community_consent`; whether the cluster identity changes -/
  | consent (enabled moved : Bool)
  /-- `revoke_community_membership` -/
  | revoke
  /-- `bind_community_contributor`, to another account -/
  | bind
  | wait (d : ℚ)
  | kill

variable (s : State F)

def State.put (i : ℕ) (a : Attempt F) : State F := { s with attempts := s.attempts.set i a }

/-- `cancel_active` -/
def State.cancelActive : State F :=
  { s with attempts := s.attempts.map fun a =>
      if a.stage = .over then a else { a with cancelled := true } }

/-- `_retry_deadline` -/
def State.retryDeadline (f : F) : ℚ :=
  match s.retry f with
  | some r => r.retryAfter
  | none => 0

def Attempt.new (f : F) (generation : ℕ) (disturbed : Bool) : Attempt F :=
  ⟨f, generation, .checking, false, false, false, false, false, false, false, disturbed⟩

/-- One target of a tick. -/
def State.schedule (snapshot : ℕ × Bool) (f : F) : State F :=
  if (s.tasks f).isSome ∨ s.seen f then s
  else if s.now < max ((s.memory f).getD 0) (s.retryDeadline f) then s
  else
    { s with
      attempts := s.attempts ++ [Attempt.new f snapshot.1 snapshot.2]
      tasks := update s.tasks f (some s.attempts.length) }

/-- Consent is written. -/
def State.consented (enabled : Bool) (generation : ℕ) (cluster : Bool) : State F :=
  let withdrawn := !enabled || generation ≠ s.generation
  { s with
    enabled := enabled
    generation := generation
    cluster := cluster
    attempts := s.attempts.map fun a => { a with disturbed := a.disturbed || withdrawn }
    ticking := s.ticking.map fun t => (t.1, t.2 || withdrawn) }

/-- The delay of `_back_off`, from the attempts it persists. -/
def backOffDelay (attempts : ℕ) : ℚ :=
  min (retryBackoffBase * 2 ^ min (attempts - 1) retryBackoffMaxExponent) retryBackoffMax

/-- The attempts that are persisted, or `0`. -/
def Retry.previous : Option Retry → ℕ
  | some r => r.attempts
  | none => 0

/-- `_back_off` -/
def State.backOff (f : F) (how : Outcome) : State F :=
  let attempts := min (Retry.previous (s.retry f) + 1) (retryBackoffMaxExponent + 1)
  let retryAfter := s.now + backOffDelay attempts
  { s with
    memory := update s.memory f (some retryAfter)
    retry := update s.retry f (some ⟨attempts, retryAfter⟩)
    log := .unsuccessful f s.now how (some retryAfter) :: s.log }

/-- An attempt is over, and leaves `_serial`. -/
def State.leave (i : ℕ) (a : Attempt F) : State F :=
  { s.put i { a with stage := .over, cancelled := false, active := false } with lock := none }

/-- A probe ends that sets no deadline. -/
def State.cutShort (a : Attempt F) (how : Outcome) : State F :=
  if a.recorded then s
  else { s with log := .unsuccessful a.fingerprint s.now how none :: s.log }

/-- `_attempt`, once `_benchmark` is over. -/
def State.conclude (i : ℕ) (a : Attempt F) (outcome : Outcome) : State F :=
  let t := s.leave i a
  match outcome with
  | .returned =>
    if a.recorded then
      { t with
        memory := update t.memory a.fingerprint none
        retry := update t.retry a.fingerprint none }
    else t.backOff a.fingerprint .returned
  | .failed => t.backOff a.fingerprint .failed
  | .cancelled => t.cutShort a .cancelled
  | .killed => t

/-- `_record_usage` and `add_benchmark_if_consented` -/
def State.record (i : ℕ) (a : Attempt F) (eligible : Bool) : State F :=
  if eligible ∧ a.enabled ∧ s.enabled ∧ s.generation = a.generation ∧
      s.cluster then
    { s.put i { a with observed := true, recorded := true } with
      seen := update s.seen a.fingerprint true
      samples := (a.fingerprint, a.disturbed) :: s.samples }
  else s.put i { a with observed := true }

/-- The attempt that has `_serial` is at its probe. -/
def Stage.isProbe : Stage → Bool
  | probing => true
  | closing _ => true
  | _ => false

/-- The probe that has `_serial` ends with the process. -/
def State.interrupt : State F :=
  match s.lock with
  | some i =>
    match s.attempts[i]? with
    | some a => if a.stage.isProbe then s.cutShort a .killed else s
    | none => s
  | none => s

/-- A process starts with the store. -/
def State.restart : State F :=
  { s with
    memory := fun _ => none
    tasks := fun _ => none
    attempts := s.attempts.map fun a =>
      { a with stage := .over, cancelled := false, popped := true, active := false }
    lock := none
    ticking := none }

def stepAttempt (i : ℕ) (a : Attempt F) : Act F → Option (State F)
  | .checked _ healthy =>
    if a.stage = .checking then
      some (s.put i { a with
        stage := if healthy then .queued else .over
        cancelled := healthy && a.cancelled })
    else none
  | .acquire _ =>
    if a.stage = .queued ∧ s.lock = none then
      if s.enabled ∧ s.generation = a.generation then
        some { s.put i { a with stage := .fresh } with lock := some i }
      else some (s.leave i a)
    else none
  | .refreshed _ ready =>
    if a.stage = .fresh then
      if ready then
        some { s.put i { a with stage := .probing, enabled := s.enabled } with
          log := .dispatched a.fingerprint s.now :: s.log }
      else some (s.leave i a)
    else none
  | .activate _ =>
    if a.stage = .probing ∧ a.streamed = false then some (s.put i { a with active := true })
    else none
  | .streamEnds _ =>
    if a.stage = .probing ∧ a.streamed = false then
      some (s.put i { a with active := false, streamed := true })
    else none
  | .records _ eligible =>
    if a.stage.isProbe = true ∧ a.streamed = true ∧ a.observed = false then
      some (s.record i a eligible)
    else none
  | .returns _ =>
    if a.stage = .probing then some (s.put i { a with stage := .closing .returned }) else none
  | .fails _ =>
    match a.stage with
    | .probing => some (s.put i { a with stage := .closing .failed })
    | .closing _ => some (s.put i { a with stage := .closing .failed })
    | _ => none
  | .deliver _ =>
    if a.cancelled = false then none
    else
      match a.stage with
      | .checking => some (s.put i { a with stage := .over, cancelled := false })
      | .queued => some (s.put i { a with stage := .over, cancelled := false })
      | .fresh => some (s.leave i a)
      | .probing => some (s.put i { a with stage := .closing .cancelled, cancelled := false })
      | .closing _ => some (s.conclude i a .cancelled)
      | .over => none
  | .closed _ =>
    match a.stage with
    | .closing outcome => some (s.conclude i a outcome)
    | _ => none
  | .callback _ =>
    if a.stage = .over ∧ a.popped = false then
      some { s.put i { a with popped := true } with
        tasks := update s.tasks a.fingerprint none }
    else none
  | _ => none

def State.onAttempt (i : ℕ) (act : Act F) : Option (State F) :=
  match s.attempts[i]? with
  | some a => stepAttempt s i a act
  | none => none

def step : Act F → Option (State F)
  | .tick =>
    if s.ticking.isSome then none
    else if s.enabled then some { s with ticking := some (s.generation, false) }
    else some s.cancelActive
  | .tickEnds targets =>
    match s.ticking with
    | some snapshot =>
      some { targets.foldl (fun t f => t.schedule snapshot f) s with ticking := none }
    | none => none
  | .tickFails => if s.ticking.isSome then some { s with ticking := none } else none
  | .checked i healthy => s.onAttempt i (.checked i healthy)
  | .acquire i => s.onAttempt i (.acquire i)
  | .refreshed i ready => s.onAttempt i (.refreshed i ready)
  | .activate i => s.onAttempt i (.activate i)
  | .streamEnds i => s.onAttempt i (.streamEnds i)
  | .records i eligible => s.onAttempt i (.records i eligible)
  | .returns i => s.onAttempt i (.returns i)
  | .fails i => s.onAttempt i (.fails i)
  | .deliver i => s.onAttempt i (.deliver i)
  | .closed i => s.onAttempt i (.closed i)
  | .callback i => s.onAttempt i (.callback i)
  | .cancelActive => some s.cancelActive
  | .consent enabled moved =>
    some (s.consented enabled
      (if s.enabled ≠ enabled ∨ (enabled = true ∧ (moved = true ∨ s.cluster = false)) then
        s.generation + 1 else s.generation)
      (enabled || s.cluster))
  | .revoke => some (s.consented false (s.generation + 1) false)
  | .bind => some (s.consented s.enabled (s.generation + 1) s.cluster)
  | .wait d => if 0 ≤ d then some { s with now := s.now + d } else none
  | .kill => some s.interrupt.restart

/-- A node whose store has neither samples nor retry states. -/
def init (now : ℚ) (enabled : Bool) (generation : ℕ) (cluster : Bool) : State F :=
  ⟨now, enabled, generation, cluster, fun _ => false, fun _ => none, fun _ => none,
    fun _ => none, [], none, none, [], []⟩

/-! ## What holds of a history -/

/-- `min (60 * 2 ^ (k - 1)) 3600` -/
def delay (k : ℕ) : ℚ := min (60 * 2 ^ (k - 1)) 3600

/-- The unsuccessful probes of a fingerprint that count. -/
def number (counts : Outcome → Bool) (f : F) : List (Event F) → ℕ
  | [] => 0
  | .dispatched _ _ :: log => number counts f log
  | .unsuccessful g _ how _ :: log =>
    if g = f ∧ counts how then number counts f log + 1 else number counts f log

/-- The deadline that the last of them set. -/
def lastDeadline (counts : Outcome → Bool) (f : F) : List (Event F) → Option ℚ
  | [] => none
  | .dispatched _ _ :: log => lastDeadline counts f log
  | .unsuccessful g _ how d :: log =>
    if g = f ∧ counts how then d else lastDeadline counts f log

/-- Every unsuccessful probe that counts, the `k`-th of its fingerprint, sets a deadline `delay k`
later, and no probe is dispatched before the deadline that the last of them set. -/
def Spaced (counts : Outcome → Bool) : List (Event F) → Prop
  | [] => True
  | .dispatched f t :: log =>
    (∀ d, lastDeadline counts f log = some d → d ≤ t) ∧ Spaced counts log
  | .unsuccessful f t how deadline :: log =>
    (counts how → ∃ d, deadline = some d ∧ t + delay (number counts f log + 1) ≤ d) ∧
      Spaced counts log

structure Sound (counts : Outcome → Bool) : Prop where
  /-- One probe at a time. -/
  exclusive : ∀ (i j : ℕ) (a b : Attempt F), s.attempts[i]? = some a → s.attempts[j]? = some b →
    a.stage.isProbe → b.stage.isProbe → i = j
  /-- One sample for a fingerprint. -/
  once : (s.samples.map Prod.fst).Nodup
  consented : ∀ x ∈ s.samples, x.2 = false
  spaced : Spaced counts s.log
  /-- An observation that is active belongs to a probe that is not over. -/
  ended : ∀ (i : ℕ) (a : Attempt F), s.attempts[i]? = some a → a.active →
    a.stage.isProbe

/-- The probe ended by itself. -/
def Outcome.isOwn : Outcome → Bool
  | returned => true
  | failed => true
  | _ => false

end SparkDeck.Startup
