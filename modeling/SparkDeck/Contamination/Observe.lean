import SparkDeck.Lib.Dict
import SparkDeck.Lib.Latch

/-!
# The observations that compete for hardware

Model of `_community_observation_start`, `_community_observation_activate`,
`_community_observation_end` and `_community_manager_requests_overlap` (`sparkdeck/service.py`), and
of the two places that write to an observation from outside: `observation.update` of a startup
benchmark, and the mark that a benchmark run puts on every active observation
(`benchmark_runner.py`).

* The callers hold on to an observation after it has left the table, and may activate it again. So
  `objects` has every observation that was started, and `active` the keys of the table in its order.
* An observation is known by its id; `uuid4` has not drawn it before.
* The scopes are a label of each step: whatever `_community_observation_scopes` and
  `_engine_observation_scopes` say.
-/

namespace SparkDeck.Contamination

open Transition Function

structure Observation where
  enabled : Bool
  generation : ℕ
  scopes : Finset String
  contaminated : Bool
  startupBenchmark : Bool
  managerScopeSequences : Option (Dict String ℕ)
  managerRequestsExpected : Option ℕ

/-- A request that the manager is serving; `nodeIds` are those of its group. -/
structure ManagerRequest where
  paused : Bool
  nodeIds : List String

structure State where
  /-- Every observation that was started. -/
  objects : String → Option Observation
  /-- `_community_active_observations` -/
  active : List String

def idle : State := ⟨fun _ => none, []⟩

/-- `_community_manager_requests_overlap` -/
def managerRequestsOverlap (requests : List ManagerRequest) (scopes : Finset String) : Bool :=
  requests.any fun rec =>
    !rec.paused && (rec.nodeIds.isEmpty || rec.nodeIds.any fun node => "node:" ++ node ∈ scopes)

/-- `observation["contaminated"] = True` -/
def mark (id : String) (objects : String → Option Observation) : String → Option Observation :=
  update objects id ((objects id).map fun o => { o with contaminated := true })

/-- What the scopes of one observation meet in another. -/
def intersects (objects : String → Option Observation) (scopes : Finset String) (id : String) :
    Bool :=
  (objects id).any fun o => decide (scopes ∩ o.scopes ≠ ∅)

/-- The loop over the active observations. -/
def clash (id : String) (scopes : Finset String) (active : List String)
    (objects : String → Option Observation) : String → Option Observation :=
  active.foldl (fun objects a =>
    if a = id then objects
    else if intersects objects scopes a then mark a (mark id objects) else objects) objects

/-- The scopes that a startup benchmark is counted from, and the requests it competes with. -/
def beginStartup (sequences : String → ℕ) (requests : List ManagerRequest) (o : Observation) :
    Observation :=
  if o.startupBenchmark && o.managerScopeSequences.isNone then
    { o with
      managerScopeSequences := some
        ⟨o.scopes, fun scope => if scope ∈ o.scopes then some (sequences scope) else none,
          fun scope => by by_cases h : scope ∈ o.scopes <;> simp [h]⟩
      managerRequestsExpected := some (o.managerRequestsExpected.getD 1)
      contaminated := o.contaminated || managerRequestsOverlap requests o.scopes }
  else o

/-- `_community_observation_activate`, of an observation that was started. -/
def State.activate (s : State) (id : String) (scopes : Option (Finset String))
    (sequences : String → ℕ) (requests : List ManagerRequest) : Option State :=
  (s.objects id).map fun o =>
    let o := { o with scopes := scopes.getD o.scopes }
    let o := beginStartup sequences requests o
    { objects := clash id o.scopes s.active (update s.objects id (some o))
      active := if id ∈ s.active then s.active else s.active ++ [id] }

/-- `_community_observation_start` -/
def State.start (s : State) (id : String) (enabled : Bool) (generation : ℕ)
    (scopes : Option (Finset String)) (deferred : Bool) : Option State :=
  match s.objects id with
  | some _ => none
  | none =>
    let scopes := match scopes with
      | some scopes => if scopes = ∅ then {"unspecified"} else scopes
      | none => {"unspecified"}
    let o : Observation := ⟨enabled, generation, scopes, false, false, none, none⟩
    let s := { s with objects := update s.objects id (some o) }
    if deferred then some s else s.activate id none (fun _ => 0) []

/-- `_community_observation_end` -/
def State.observationEnd (s : State) (id : String) : State :=
  { s with active := s.active.filter (· ≠ id) }

/-- `observation.update` of a startup benchmark. -/
def State.startupBenchmark (s : State) (id : String) (generation expected : ℕ) : Option State :=
  (s.objects id).map fun o =>
    let o := { o with
      startupBenchmark := true
      generation := generation
      managerRequestsExpected := some expected }
    { s with objects := update s.objects id (some o) }

/-- A benchmark run begins (`_start_run_locked`). -/
def State.runBenchmark (s : State) : State :=
  { s with objects := s.active.foldl (fun objects id => mark id objects) s.objects }

inductive Op where
  | start (id : String) (enabled : Bool) (generation : ℕ) (scopes : Option (Finset String))
      (deferred : Bool)
  | activate (id : String) (scopes : Option (Finset String)) (sequences : String → ℕ)
      (requests : List ManagerRequest)
  | observationEnd (id : String)
  | startupBenchmark (id : String) (generation expected : ℕ)
  | runBenchmark

def step (s : State) : Op → Option State
  | .start id enabled generation scopes deferred => s.start id enabled generation scopes deferred
  | .activate id scopes sequences requests => s.activate id scopes sequences requests
  | .observationEnd id => some (s.observationEnd id)
  | .startupBenchmark id generation expected => s.startupBenchmark id generation expected
  | .runBenchmark => some s.runBenchmark

end SparkDeck.Contamination
