import Mathlib.Data.List.Dedup
import Mathlib.Data.List.Sort
import SparkDeck.Occupancy.Absence

/-!
# The nodes that a deployment occupies

`_observed_occupied_node_ids` and `_reconcile_stale_running_intent` of `service.py`, on a refreshed
Manager deployment. `ranksOn c n` are its members on the node `n`.

* `mem_observedOccupiedNodeIds`: a node is occupied exactly if it is online and either belongs to an
  operation in flight, or has a rank and is not idle, or has no rank and is one of the deployment's.
* `occupancy`: so a rank that is not known to be absent keeps its node, and only that node.
-/

namespace SparkDeck.Occupancy

inductive Status where
  | launching | starting | stopping | recovering | running | stopped | error | exited | dead
  | missing | unreachable
  | other (text : String)
  deriving DecidableEq

inductive NodeStatus where
  | online | offline | unreachable | disconnected
  | other (text : String)
  deriving DecidableEq

/-- A rank. `none` is a field that is absent, empty or null. -/
structure Member where
  nodeId : Option String
  status : Option Status := none
  desiredState : Option Status := none
  nodeStatus : Option NodeStatus := none
  recreatePending : Bool := false
  failedStopError : List Char := []
  nodeDockerReady : Option Bool := none
  nodeInventoryAvailable : Option Bool := none
  hasLiveContainer : Option Bool := none

/-- A deployment; a member list that cannot be read is empty. -/
structure Cluster where
  status : Option Status := none
  desiredState : Option Status := none
  nodeIds : List String := []
  members : List Member := []

/-- `_ABSENT_MEMBER_STATUSES` -/
def Member.absent (m : Member) : Bool :=
  m.status = some .exited || m.status = some .stopped || m.status = some .dead ||
    m.status = some .missing

/-- `_IN_FLIGHT_CLUSTER_STATUSES` -/
def Cluster.inFlight (c : Cluster) : Bool :=
  c.status = some .launching || c.status = some .starting || c.status = some .stopping ||
    c.status = some .recovering

/-- `_observed_absent_ranks` -/
def observedAbsentRanks (c : Cluster) : Bool :=
  c.members ≠ [] && c.members.all fun m => m.absent && !m.recreatePending

/-- `_reconcile_stale_running_intent`: the deployment after it, and whether its intent changed. -/
def reconcileStaleRunningIntent (c : Cluster) (storedDesired : Option Status) : Cluster × Bool :=
  if storedDesired ≠ some .stopped ∨ c.desiredState ≠ some .running then (c, false)
  else if c.inFlight then (c, false)
  else if observedAbsentRanks c = false then (c, false)
  else
    ({ c with
        desiredState := some .stopped
        members := c.members.map fun m => { m with desiredState := some .stopped } }, true)

def Member.offline (m : Member) : Bool :=
  m.nodeStatus = some .offline || m.nodeStatus = some .unreachable ||
    m.nodeStatus = some .disconnected || m.status = some .unreachable

def offline (c : Cluster) : List String :=
  c.members.filterMap fun m => if m.offline = true then m.nodeId else none

/-- The nodes that have a rank. -/
def rankNodes (c : Cluster) : List String := c.members.filterMap Member.nodeId

def ranksOn (c : Cluster) (n : String) : List Member := c.members.filter fun m => m.nodeId = some n

/-- `by_node` -/
def byNode (c : Cluster) : List (String × List Member) :=
  (rankNodes c).dedup.map fun n => (n, ranksOn c n)

/-- `sorted` of a set. -/
def sorted (ids : List String) : List String := ids.dedup.insertionSort (· ≤ ·)

/-- `desired_state or "running"` is a stop. -/
def Member.wantsStop (m : Member) : Bool := m.desiredState.getD .running = .stopped

def Cluster.stopped (c : Cluster) : Bool :=
  c.desiredState.getD .running = .stopped || c.status = some .stopped

/-- A launch that failed before any container existed, as healthy inventories confirm. -/
def failedLaunchAbsent (c : Cluster) (ranks : List Member) : Bool :=
  c.status = some .error && ranks.all fun m =>
    m.hasLiveContainer = some false && m.nodeStatus = some .online &&
      m.nodeDockerReady = some true && m.nodeInventoryAvailable = some true

section Word

variable (word : Char → Bool)

/-- `_member_occupies_no_node` -/
def memberOccupiesNoNode (m : Member) : Bool :=
  if m.failedStopError ≠ [] ∧ onlyMissing word m.failedStopError = false then false
  else if m.absent then true
  else m.status = some .error && m.nodeDockerReady ≠ some false

/-- A rank that holds nothing and is not about to be made again. -/
def Member.gone (m : Member) : Bool := !m.recreatePending && memberOccupiesNoNode word m

def idle (c : Cluster) (ranks : List Member) : Bool :=
  (c.stopped || ranks.all Member.wantsStop || failedLaunchAbsent c ranks) &&
    ranks.all (Member.gone word)

/-- One turn of the loop over the nodes. -/
def reserve (c : Cluster) (occupied : List String) (node : String × List Member) : List String :=
  if idle word c node.2 then occupied.filter (· ≠ node.1) else node.1 :: occupied

/-- `_observed_occupied_node_ids` -/
def observedOccupiedNodeIds (c : Cluster) : Option (List String) :=
  if c.members = [] then none
  else if c.inFlight then
    some (sorted ((c.nodeIds ++ rankNodes c).filter (· ∉ offline c)))
  else
    some (sorted (((byNode c).foldl (reserve word c) c.nodeIds).filter (· ∉ offline c)))

/-! ## What is occupied -/

variable {word} {c c' : Cluster} {n : String} {ids : List String}

theorem mem_sorted : n ∈ sorted ids ↔ n ∈ ids := by
  unfold sorted
  rw [List.mem_insertionSort, List.mem_dedup]

theorem mem_ranksOn {m : Member} : m ∈ ranksOn c n ↔ m ∈ c.members ∧ m.nodeId = some n := by
  unfold ranksOn
  rw [List.mem_filter, decide_eq_true_iff]

theorem mem_rankNodes : n ∈ rankNodes c ↔ ranksOn c n ≠ [] := by
  unfold rankNodes
  rw [List.mem_filterMap]
  constructor
  · rintro ⟨m, hm⟩
    exact List.ne_nil_of_mem (mem_ranksOn.mpr hm)
  · intro h
    obtain ⟨m, hm⟩ := List.exists_mem_of_ne_nil _ h
    exact ⟨m, mem_ranksOn.mp hm⟩

/-- A node is online if no rank on it tells otherwise. -/
def Online (c : Cluster) (n : String) : Prop := ∀ m ∈ ranksOn c n, m.offline = false

theorem not_mem_offline : n ∉ offline c ↔ Online c n := by
  unfold offline Online
  rw [List.mem_filterMap]
  constructor
  · intro h m hm
    obtain ⟨hmem, hnode⟩ := mem_ranksOn.mp hm
    rw [Bool.eq_false_iff]
    exact fun hoff => h ⟨m, hmem, by rw [if_pos hoff, hnode]⟩
  · rintro h ⟨m, hmem, hm⟩
    split at hm
    case isTrue hoff =>
      exact Bool.false_ne_true ((h m (mem_ranksOn.mpr ⟨hmem, hm⟩)).symm.trans hoff)
    case isFalse => cases hm

/-- The loop decides the nodes that it comes to, each by its own ranks, and leaves the others. -/
theorem mem_foldl_reserve {names : List String} (hnd : names.Nodup) (occupied : List String) :
    n ∈ (names.map fun n => (n, ranksOn c n)).foldl (reserve word c) occupied ↔
      (n ∈ names ∧ idle word c (ranksOn c n) = false) ∨ (n ∉ names ∧ n ∈ occupied) := by
  induction names generalizing occupied with
  | nil => simp
  | cons name names ih =>
    obtain ⟨hname, hnd⟩ := List.nodup_cons.mp hnd
    rw [List.map_cons, List.foldl_cons, ih hnd]
    have hturn : n ∈ reserve word c occupied (name, ranksOn c name) ↔
        (n = name ∧ idle word c (ranksOn c n) = false) ∨ (n ≠ name ∧ n ∈ occupied) := by
      unfold reserve
      by_cases hn : n = name
      · subst hn
        cases hidle : idle word c (ranksOn c n) with
        | true => simp
        | false => simp
      · split
        · simp [hn]
        · simp [hn]
    rw [hturn]
    by_cases hn : n = name
    · subst hn
      simp [hname]
    · simp [hn]

/-- **What is occupied.** -/
theorem mem_observedOccupiedNodeIds (h : observedOccupiedNodeIds word c = some ids) :
    n ∈ ids ↔ Online c n ∧
      ((c.inFlight ∧ (n ∈ c.nodeIds ∨ ranksOn c n ≠ [])) ∨
       (c.inFlight = false ∧ ((ranksOn c n ≠ [] ∧ idle word c (ranksOn c n) = false) ∨
        (ranksOn c n = [] ∧ n ∈ c.nodeIds)))) := by
  unfold observedOccupiedNodeIds at h
  split at h
  · cases h
  split at h
  case isTrue hflight =>
    cases h
    rw [mem_sorted, List.mem_filter, decide_eq_true_iff, not_mem_offline, List.mem_append,
      mem_rankNodes, hflight]
    simp [and_comm]
  case isFalse hflight =>
    cases h
    rw [mem_sorted, List.mem_filter, decide_eq_true_iff, not_mem_offline]
    unfold byNode
    rw [mem_foldl_reserve (List.nodup_dedup _), List.mem_dedup, mem_rankNodes,
      Bool.eq_false_iff.mpr hflight]
    simp [and_comm]

/-! ## What is known to be absent -/

/-- A stop that failed for another reason than that the container is missing. -/
def FailedStop (word : Char → Bool) (m : Member) : Prop :=
  m.failedStopError ≠ [] ∧ (fragments m.failedStopError = [] ∨
    ∃ f ∈ fragments m.failedStopError, namesAbsence word f = false)

/-- A rank that is not known to be absent: it is live, or about to be made again, or could not be
stopped, or has failed on a node whose Docker is not ready. -/
def Holds (word : Char → Bool) (m : Member) : Prop :=
  (m.absent = false ∧ m.status ≠ some .error) ∨ m.recreatePending = true ∨ FailedStop word m ∨
    (m.status = some .error ∧ m.nodeDockerReady = some false)

variable {m : Member}

theorem failedStop_iff :
    FailedStop word m ↔ m.failedStopError ≠ [] ∧ onlyMissing word m.failedStopError = false := by
  refine and_congr_right fun _ => ?_
  rw [Bool.eq_false_iff, ne_eq, onlyMissing_iff, not_and_or, not_not]
  refine or_congr Iff.rfl ?_
  push Not
  exact exists_congr fun f => and_congr_right fun _ => Bool.eq_false_iff

/-- A cause of a failed stop that names no absence keeps the rank, whatever the other causes are. -/
theorem failedStop_of_cause {causes : List (List Char)} {cause f : List Char}
    (herror : m.failedStopError = aggregate causes) (hcause : cause ∈ causes)
    (hf : f ∈ fragments cause) (h : namesAbsence word f = false) : FailedStop word m := by
  have hmem : f ∈ fragments m.failedStopError := by
    rw [herror, fragments_aggregate]
    exact List.mem_flatMap.mpr ⟨cause, hcause, hf⟩
  refine ⟨fun hnil => ?_, Or.inr ⟨f, hmem, h⟩⟩
  rw [hnil, fragments_nil] at hmem
  exact absurd hmem List.not_mem_nil

/-- An absent rank has no failed launch on record. -/
theorem not_error_of_absent (h : m.absent) : m.status ≠ some .error := by
  intro herror
  unfold Member.absent at h
  rw [herror] at h
  cases h

/-- The test of the source is that nothing holds the rank. -/
theorem gone_iff : m.gone word = false ↔ Holds word m := by
  unfold Member.gone Holds
  rw [Bool.and_eq_false_iff, Bool.not_eq_false', or_left_comm]
  refine or_congr Iff.rfl ?_
  rw [failedStop_iff]
  unfold memberOccupiesNoNode
  split
  case isTrue hstop => exact iff_of_true rfl (Or.inr (Or.inl hstop))
  case isFalse hstop =>
    split
    case isTrue habsent =>
      refine iff_of_false (by decide) ?_
      rintro (⟨hlive, -⟩ | hfailed | ⟨herror, -⟩)
      · exact Bool.false_ne_true (hlive.symm.trans habsent)
      · exact hstop hfailed
      · exact not_error_of_absent habsent herror
    case isFalse habsent =>
      rw [Bool.and_eq_false_iff, decide_eq_false_iff_not, decide_eq_false_iff_not, not_not]
      constructor
      · rintro (hstatus | hdocker)
        · exact Or.inl ⟨Bool.eq_false_iff.mpr habsent, hstatus⟩
        · by_cases herror : m.status = some .error
          · exact Or.inr (Or.inr ⟨herror, hdocker⟩)
          · exact Or.inl ⟨Bool.eq_false_iff.mpr habsent, herror⟩
      · rintro (⟨-, hstatus⟩ | hfailed | ⟨-, hdocker⟩)
        · exact Or.inl hstatus
        · exact absurd hfailed hstop
        · exact Or.inr hdocker

theorem not_idle_of_holds (h : ∃ m ∈ ranksOn c n, Holds word m) :
    idle word c (ranksOn c n) = false := by
  obtain ⟨m, hm, hh⟩ := h
  unfold idle
  rw [Bool.and_eq_false_iff, List.all_eq_false]
  exact Or.inr ⟨m, hm, Bool.eq_false_iff.mp (gone_iff.mpr hh)⟩

/-- A node with stopped intent is idle exactly if nothing holds a rank on it. -/
theorem idle_iff (h : c.stopped ∨ ∀ m ∈ ranksOn c n, m.wantsStop) :
    idle word c (ranksOn c n) = false ↔ ∃ m ∈ ranksOn c n, Holds word m := by
  refine ⟨fun hidle => ?_, not_idle_of_holds⟩
  have hintent : (c.stopped || (ranksOn c n).all Member.wantsStop ||
      failedLaunchAbsent c (ranksOn c n)) := by
    obtain hc | hranks := h
    · rw [hc, Bool.true_or, Bool.true_or]
    · rw [List.all_eq_true.mpr hranks, Bool.or_true, Bool.true_or]
  unfold idle at hidle
  rw [hintent, Bool.true_and, List.all_eq_false] at hidle
  obtain ⟨m, hm, hgone⟩ := hidle
  exact ⟨m, hm, gone_iff.mp (Bool.eq_false_iff.mpr hgone)⟩

/-! ## The intent -/

theorem reconcile_cases {stored : Option Status} {changed : Bool}
    (h : reconcileStaleRunningIntent c stored = (c', changed)) :
    (c' = c ∧ changed = false) ∨
    (changed ∧ stored = some .stopped ∧ c.desiredState = some .running ∧
      c.inFlight = false ∧ observedAbsentRanks c = true ∧
      c' = { c with
        desiredState := some .stopped
        members := c.members.map fun m => { m with desiredState := some .stopped } }) := by
  unfold reconcileStaleRunningIntent at h
  split at h
  · cases h
    exact Or.inl ⟨rfl, rfl⟩
  case isFalse hintent =>
    obtain ⟨hstored, hdesired⟩ := not_or.mp hintent
    split at h
    · cases h
      exact Or.inl ⟨rfl, rfl⟩
    case isFalse hflight =>
      split at h
      · cases h
        exact Or.inl ⟨rfl, rfl⟩
      case isFalse habsent =>
        cases h
        exact Or.inr ⟨rfl, not_not.mp hstored, not_not.mp hdesired,
          Bool.eq_false_iff.mpr hflight, (Bool.not_eq_false _).mp habsent, rfl⟩

theorem observedAbsentRanks_iff : observedAbsentRanks c ↔
    c.members ≠ [] ∧ ∀ m ∈ c.members, m.absent = true ∧ m.recreatePending = false := by
  unfold observedAbsentRanks
  rw [Bool.and_eq_true, decide_eq_true_iff, List.all_eq_true]
  refine and_congr_right fun _ => forall₂_congr fun m _ => ?_
  rw [Bool.and_eq_true, Bool.not_eq_true']

/-- The nodes of a stopped deployment with nothing in flight. -/
theorem mem_of_stopped (h : observedOccupiedNodeIds word c = some ids)
    (hflight : c.inFlight = false) (hstop : c.stopped = true) :
    n ∈ ids ↔ Online c n ∧
      ((∃ m ∈ ranksOn c n, Holds word m) ∨ (ranksOn c n = [] ∧ n ∈ c.nodeIds)) := by
  rw [mem_observedOccupiedNodeIds h, hflight, idle_iff (Or.inl hstop)]
  refine and_congr_right fun _ => ?_
  constructor
  · rintro (⟨hf, -⟩ | ⟨-, ⟨-, hholds⟩ | hrankless⟩)
    · cases hf
    · exact Or.inl hholds
    · exact Or.inr hrankless
  · rintro (⟨m, hm, hh⟩ | hrankless)
    · exact Or.inr ⟨rfl, Or.inl ⟨List.ne_nil_of_mem hm, m, hm, hh⟩⟩
    · exact Or.inr ⟨rfl, Or.inr hrankless⟩

/-- What the deployments of a cluster hold, whatever `\w` is. -/
structure SafeAndLive (word : Char → Bool) : Prop where
  safe : ∀ {c : Cluster} {ids n}, observedOccupiedNodeIds word c = some ids → Online c n →
    (∃ m ∈ ranksOn c n, Holds word m) ∨
      (c.inFlight ∧ (ranksOn c n ≠ [] ∨ n ∈ c.nodeIds)) → n ∈ ids
  aggregated : ∀ {m : Member} {causes cause f}, m.failedStopError = aggregate causes →
    cause ∈ causes → f ∈ fragments cause → namesAbsence word f = false → Holds word m
  released : ∀ {c : Cluster} {ids n}, observedOccupiedNodeIds word c = some ids →
    c.inFlight = false → ranksOn c n ≠ [] → (∀ m ∈ ranksOn c n, ¬ Holds word m) →
    (c.stopped ∨ ∀ m ∈ ranksOn c n, m.wantsStop) → n ∉ ids
  own : ∀ {c c' : Cluster} {ids ids' n}, observedOccupiedNodeIds word c = some ids →
    observedOccupiedNodeIds word c' = some ids' → c.status = c'.status →
    c.desiredState = c'.desiredState → c.nodeIds = c'.nodeIds → ranksOn c n = ranksOn c' n →
    (n ∈ ids ↔ n ∈ ids')
  kept : ∀ {c c' : Cluster} {stored}, reconcileStaleRunningIntent c stored = (c', false) → c' = c
  reconciled : ∀ {c c' : Cluster} {stored}, reconcileStaleRunningIntent c stored = (c', true) →
    c.desiredState = some .running ∧ c'.desiredState = some .stopped ∧ c.inFlight = false ∧
    (∀ m ∈ c.members, m.absent = true ∧ m.recreatePending = false) ∧
    ∃ ids, observedOccupiedNodeIds word c' = some ids ∧
      ∀ n, n ∈ ids ↔ Online c' n ∧
        ((∃ m ∈ ranksOn c' n, Holds word m) ∨ (ranksOn c' n = [] ∧ n ∈ c'.nodeIds))

theorem occupancy (word : Char → Bool) : SafeAndLive word where
  safe {c ids n} h honline hheld := by
    refine (mem_observedOccupiedNodeIds h).mpr ⟨honline, ?_⟩
    cases hflight : c.inFlight with
    | true =>
      refine Or.inl ⟨rfl, ?_⟩
      obtain ⟨m, hm, -⟩ | ⟨-, hranks | hid⟩ := hheld
      · exact Or.inr (List.ne_nil_of_mem hm)
      · exact Or.inr hranks
      · exact Or.inl hid
    | false =>
      obtain ⟨m, hm, hh⟩ | ⟨hf, -⟩ := hheld
      · exact Or.inr ⟨rfl, Or.inl ⟨List.ne_nil_of_mem hm, not_idle_of_holds ⟨m, hm, hh⟩⟩⟩
      · cases hflight.symm.trans hf
  aggregated herror hcause hf h := Or.inr (Or.inr (Or.inl (failedStop_of_cause herror hcause hf h)))
  released h hflight hranks hgone hintent hmem := by
    obtain ⟨-, ⟨hf, -⟩ | ⟨-, ⟨-, hidle⟩ | ⟨hnone, -⟩⟩⟩ := (mem_observedOccupiedNodeIds h).mp hmem
    · cases hflight.symm.trans hf
    · obtain ⟨m, hm, hh⟩ := (idle_iff hintent).mp hidle
      exact hgone m hm hh
    · exact hranks hnone
  own {c c' ids ids' n} h h' hstatus hdesired hids hranks := by
    have hflight : c.inFlight = c'.inFlight := by
      unfold Cluster.inFlight
      rw [hstatus]
    have hidle : idle word c (ranksOn c' n) = idle word c' (ranksOn c' n) := by
      unfold idle Cluster.stopped failedLaunchAbsent
      rw [hstatus, hdesired]
    rw [mem_observedOccupiedNodeIds h, mem_observedOccupiedNodeIds h', hflight, hids]
    unfold Online
    rw [hranks, hidle]
  kept h := by
    obtain ⟨rfl, -⟩ | ⟨hchanged, -⟩ := reconcile_cases h
    · rfl
    · cases hchanged
  reconciled {c c' stored} h := by
    obtain ⟨-, hchanged⟩ | ⟨-, -, hdesired, hflight, habsent, rfl⟩ := reconcile_cases h
    · exact absurd hchanged.symm Bool.false_ne_true
    obtain ⟨hmembers, hranks⟩ := observedAbsentRanks_iff.mp habsent
    refine ⟨hdesired, rfl, hflight, hranks, ?_⟩
    cases hids : observedOccupiedNodeIds word { c with
        desiredState := some .stopped
        members := c.members.map fun m => { m with desiredState := some .stopped } } with
    | none =>
      unfold observedOccupiedNodeIds at hids
      rw [if_neg fun hnil => hmembers (List.map_eq_nil_iff.mp hnil)] at hids
      split at hids <;> cases hids
    | some ids => exact ⟨ids, rfl, fun n => mem_of_stopped hids hflight rfl⟩

end Word

/-! ## What is not occupied as one might expect -/

section Unexpected

/-- A failed launch on a node that says nothing of its Docker. -/
def unreported : Cluster :=
  { desiredState := some .stopped, members := [{ nodeId := some "a", status := some .error }] }

/-- A stop in flight, of a rank that has already gone. -/
def stopping : Cluster :=
  { status := some .stopping, desiredState := some .stopped
    members := [{ nodeId := some "a", status := some .stopped, desiredState := some .stopped }] }

/-- A running intent, with a node that has no rank and one that has gone offline. -/
def outlived : Cluster :=
  { desiredState := some .running, nodeIds := ["a", "b"]
    members := [{ nodeId := some "a", status := some .exited, nodeStatus := some .offline
                  failedStopError := "unreachable".toList }] }

/-- A failed launch without a ready Docker releases its node, an absent rank with stopped intent may
keep its node, and what a corrected intent leaves occupied is not where a rank fails the test. -/
theorem occupancy_unexpected :
    (¬ ∀ {c : Cluster} {ids n}, observedOccupiedNodeIds Char.isAlphanum c = some ids →
      Online c n → (∃ m ∈ ranksOn c n, m.status = some .error ∧ m.nodeDockerReady ≠ some true) →
      n ∈ ids) ∧
    (¬ ∀ {c : Cluster} {ids n}, observedOccupiedNodeIds Char.isAlphanum c = some ids →
      ranksOn c n ≠ [] → (∀ m ∈ ranksOn c n, ¬ Holds Char.isAlphanum m) →
      (c.stopped = true ∨ ∀ m ∈ ranksOn c n, m.wantsStop = true) → n ∉ ids) ∧
    ¬ ∀ {c c' : Cluster} {stored ids n}, reconcileStaleRunningIntent c stored = (c', true) →
      observedOccupiedNodeIds Char.isAlphanum c' = some ids →
      (n ∈ ids ↔ ∃ m ∈ ranksOn c' n, Holds Char.isAlphanum m) := by
  refine ⟨fun h => ?_, fun h => ?_, fun h => ?_⟩
  · have hids : observedOccupiedNodeIds Char.isAlphanum unreported = some [] := by decide +kernel
    have honline : Online unreported "a" := fun m hm => by
      obtain rfl := List.mem_singleton.mp (mem_ranksOn.mp hm).1
      rfl
    exact List.not_mem_nil (h hids honline
      ⟨_, mem_ranksOn.mpr ⟨List.mem_singleton.mpr rfl, rfl⟩, rfl, by decide⟩)
  · have hids : observedOccupiedNodeIds Char.isAlphanum stopping = some ["a"] := by decide +kernel
    refine h hids (List.ne_nil_of_mem (mem_ranksOn.mpr ⟨List.mem_singleton.mpr rfl, rfl⟩))
      (fun m hm => ?_) (Or.inl rfl) List.mem_cons_self
    obtain rfl := List.mem_singleton.mp (mem_ranksOn.mp hm).1
    rw [← gone_iff]
    decide
  · have hids : observedOccupiedNodeIds Char.isAlphanum
        (reconcileStaleRunningIntent outlived (some .stopped)).1 = some ["b"] := by decide +kernel
    obtain ⟨m, hm, -⟩ := (@h outlived _ (some .stopped) _ "b" rfl hids).mp List.mem_cons_self
    obtain ⟨hmem, hnode⟩ := mem_ranksOn.mp hm
    obtain rfl := List.mem_singleton.mp hmem
    exact absurd hnode (by decide)

end Unexpected

end SparkDeck.Occupancy
