import Mathlib.Data.List.Basic
import SparkDeck.Lib.Transition

/-!
# The host ports of a node

`create_container`, `_allocate_port`, `_used_host_ports` (`manager.py`) and the part of
`_create_deployment` between `_preflight_deployment_launch` and the `api_port` of the record, which
awaits nothing. What is between two awaits is one step.

* A call is a launch that gets its port from `_allocate_port`: a cluster member without a port, which
  allocates under `_host_port_reservation_lock` and reserves; a standalone launch; or a deployment,
  which records what it allocated and gives it to its local member. Launches with a port of their own
  are not calls: their ports are among those that a scan or the records may have besides (`seen` and
  `others` are not bounded above).
* `containers.list` runs in a thread. Of what it returns the model asks only that a container whose
  creation had returned before the scan began (`before`), and which is there when it ends, is in it
  with its port.
* A container is there from the start of Docker's create (`starting`) on, and `live` once that has
  returned. It may be created after its call was cancelled, since threads go on.
* `release_reservation` is a callback of the creation's task: it runs some time after the task is
  done (`settled`). `releases` counts its runs. Cancelling a member's request leaves the shielded task
  alone, so `cancel` is for calls that have none.
* The allocation on behalf of a deployment that is replaced (`exclude_deployment_id`) is left out.
-/

namespace SparkDeck.Ports

inductive Kind where
  | member
  | standalone
  | deployment
  deriving DecidableEq

inductive Stage where
  /-- Before `_allocate_port`; a member may await the lock. -/
  | waiting
  /-- The scan runs in its thread. -/
  | scanning
  /-- The scan is done, and the call is not resumed yet. -/
  | scanned
  /-- It has a port. -/
  | creating
  /-- The creation is done, and the callback of its task has not run. -/
  | settled
  | over
  deriving DecidableEq

/-- The container of a call. -/
inductive Made where
  | none
  | starting
  | live
  | gone
  deriving DecidableEq

structure Call where
  kind : Kind
  stage : Stage
  /-- The calls whose creations had returned when the scan began. -/
  before : List ℕ
  /-- The ports in the result of the scan. -/
  seen : List ℕ
  port : Option ℕ
  made : Made
  releases : ℕ

structure State where
  calls : List Call
  /-- `_host_port_reservations` -/
  reservations : List ℕ
  /-- `_host_port_reservation_lock` -/
  locked : Option ℕ
  /-- The ports of the records of deployments. -/
  records : List (ℕ × ℕ)
  /-- The ports of other records. -/
  others : List ℕ
  /-- `port_range_start` -/
  first : ℕ
  /-- `port_range_end` -/
  last : ℕ

inductive Act where
  | start (kind : Kind)
  | scan (k : ℕ)
  | scanEnds (k : ℕ) (seen : List ℕ)
  /-- The call reads the records and the reservations, and takes a port. -/
  | allocate (k : ℕ)
  | cancel (k : ℕ)
  /-- Docker's create is called. -/
  | create (k : ℕ)
  | created (k : ℕ)
  | createFails (k : ℕ)
  | settle (k : ℕ)
  | release (k : ℕ)
  /-- The container is removed. -/
  | remove (k : ℕ)
  /-- The record of a deployment reserves its port, again. -/
  | record (k : ℕ)
  /-- The record becomes inactive, or is deleted. -/
  | retire (k : ℕ)
  /-- The settings and the other records change. -/
  | configure (first last : ℕ) (others : List ℕ)

def Call.new (kind : Kind) : Call := ⟨kind, .waiting, [], [], none, .none, 0⟩

/-- An allocation is under way. -/
def Call.isPending (c : Call) : Bool := c.stage = .scanning || c.stage = .scanned

/-- The container exists or is being created under a port from `_allocate_port`. -/
def Call.holds (c : Call) : Bool :=
  c.port.isSome &&
    (c.made = .live || c.made = .starting || (c.made = .none && c.stage = .creating))

variable (s : State)

def State.put (k : ℕ) (c : Call) : State := { s with calls := s.calls.set k c }

/-- The lock is given up by its holder. -/
def State.unlock (k : ℕ) : State :=
  { s with locked := if s.locked = some k then none else s.locked }

def isLive (i : ℕ) : Bool :=
  match s.calls[i]? with
  | some c => c.made = .live
  | none => false

/-- The ports of the containers that a scan cannot miss. -/
def owed (c : Call) : List ℕ :=
  c.before.filterMap fun i =>
    match s.calls[i]? with
    | some d => if d.made = .live then d.port else none
    | none => none

/-- `_used_host_ports` -/
def usedHostPorts (c : Call) : List ℕ :=
  c.seen ++ s.records.map Prod.snd ++ s.others ++ s.reservations

/-- `_allocate_port` -/
def allocatePort (c : Call) : Option ℕ :=
  (List.range' s.first (s.last + 1 - s.first)).find? fun p => p ∉ usedHostPorts s c

/-- What goes with a port: a reservation, or a record. -/
def State.claim (k p : ℕ) : Kind → State
  | .member => { s with reservations := s.reservations ++ [p] }
  | .standalone => s
  | .deployment => { s with records := s.records ++ [(k, p)] }

def stepCall (k : ℕ) (c : Call) : Act → Option State
  | .scan _ =>
    if c.stage = .waiting ∧ (c.kind = .member → s.locked = none) then
      some { s.put k { c with
          stage := .scanning, before := (List.range s.calls.length).filter (isLive s) } with
        locked := if c.kind = .member then some k else s.locked }
    else none
  | .scanEnds _ seen =>
    if c.stage = .scanning ∧ ∀ p ∈ owed s c, p ∈ seen then
      some (s.put k { c with stage := .scanned, seen := seen })
    else none
  | .allocate _ =>
    if c.stage = .scanned then
      match allocatePort s c with
      | none => some ((s.put k { c with stage := .over }).unlock k)
      | some p =>
        some (((s.put k { c with stage := .creating, port := some p }).claim k p c.kind).unlock k)
    else none
  | .cancel _ =>
    if c.stage = .waiting ∨ c.isPending ∨ (c.stage = .creating ∧ c.kind ≠ .member) then
      some ((s.put k { c with stage := .over }).unlock k)
    else none
  | .create _ =>
    if c.stage = .creating ∧ c.made = .none then some (s.put k { c with made := .starting })
    else none
  | .created _ => if c.made = .starting then some (s.put k { c with made := .live }) else none
  | .createFails _ => if c.made = .starting then some (s.put k { c with made := .gone }) else none
  | .settle _ =>
    if c.stage = .creating ∧ c.made ≠ .starting then
      some (s.put k { c with stage := if c.kind = .member then .settled else .over })
    else none
  | .release _ =>
    if c.stage = .settled then
      some { s.put k { c with stage := .over, releases := c.releases + 1 } with
        reservations := s.reservations.filter fun p => c.port ≠ some p }
    else none
  | .remove _ => if c.made = .live then some (s.put k { c with made := .gone }) else none
  | .record _ =>
    match c.kind, c.port with
    | .deployment, some p => some { s with records := s.records ++ [(k, p)] }
    | _, _ => none
  | .retire _ =>
    if c.kind = .deployment then some { s with records := s.records.filter fun x => x.1 ≠ k }
    else none
  | _ => none

/-- The call that an act is about. -/
def Act.call : Act → ℕ
  | start _ => 0
  | scan k => k
  | scanEnds k _ => k
  | allocate k => k
  | cancel k => k
  | create k => k
  | created k => k
  | createFails k => k
  | settle k => k
  | release k => k
  | remove k => k
  | record k => k
  | retire k => k
  | configure _ _ _ => 0

def step (a : Act) : Option State :=
  match a with
  | .start kind => some { s with calls := s.calls ++ [Call.new kind] }
  | .configure first last others =>
    some { s with first := first, last := last, others := others }
  | a =>
    match s.calls[a.call]? with
    | some c => stepCall s a.call c a
    | none => none

def init (first last : ℕ) (others : List ℕ) : State := ⟨[], [], none, [], others, first, last⟩

/-! ## What holds in every run, and what may fail -/

/-- Reservations and creations in progress correspond. -/
structure Accounted : Prop where
  /-- No reservation without a creation that it is for, nor after its callback. -/
  owned : ∀ p ∈ s.reservations, ∃ (k : ℕ) (c : Call), s.calls[k]? = some c ∧ c.kind = .member ∧
    c.port = some p ∧ (c.stage = .creating ∨ c.stage = .settled)
  reserved : ∀ (k : ℕ) (c : Call) (p : ℕ), s.calls[k]? = some c → c.kind = .member → c.port = some p →
    c.stage = .creating ∨ c.stage = .settled → p ∈ s.reservations ∧ c.releases = 0
  /-- Each is released exactly once, after its creation has settled. -/
  released : ∀ (k : ℕ) (c : Call), s.calls[k]? = some c → c.kind = .member → c.port.isSome →
    c.stage = .over → c.releases = 1 ∧ c.made ≠ .starting
  once : ∀ (k : ℕ) (c : Call), s.calls[k]? = some c → c.releases ≤ 1 ∧
    (c.releases = 1 → c.kind = .member ∧ c.port.isSome ∧ c.stage = .over)

/-- No two containers that exist or are being created were given one port. -/
def Exclusive : Prop :=
  ∀ (j k : ℕ) (c d : Call) (p : ℕ), s.calls[j]? = some c → s.calls[k]? = some d → j ≠ k →
    c.holds → d.holds → c.port = some p → d.port ≠ some p

/-- A port is taken only when every standalone launch that holds one is in the scan; and neither a
reservation nor a record goes while a scan is under way that began before the creation returned. -/
def Orderly : Act → Prop
  | .allocate k => ∀ c : Call, s.calls[k]? = some c → ∀ (j : ℕ) (d : Call), s.calls[j]? = some d →
      d.kind = .standalone → d.holds → j ∈ c.before
  | .release k => ∀ c : Call, s.calls[k]? = some c → c.made = .live →
      ∀ (j : ℕ) (d : Call), s.calls[j]? = some d → d.isPending → k ∈ d.before
  | .retire k => ∀ c : Call, s.calls[k]? = some c → c.holds →
      c.made = .live ∧ ∀ (j : ℕ) (d : Call), s.calls[j]? = some d → d.isPending → k ∈ d.before
  | _ => True

end SparkDeck.Ports
