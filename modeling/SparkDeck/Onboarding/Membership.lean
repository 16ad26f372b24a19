import Mathlib.Data.Finset.Basic
import SparkDeck.Lib.Transition

/-!
# Cluster membership of one node

`register`, `join`, `leave` and `detach` of `OnboardingService` (`sparkdeck/onboarding.py`), cut at
their awaits. An await that answers, fails or times out is a step with `ok` or without. The agent
credential is a number that goes up whenever it is replaced, together with the pairing code: `pair`
replaces it for a controller that has the current code, `revoke_remote_access` for nobody.

A pairing request that a join has sent may reach the node at any time, also when the join is over.
Local deployments and the containers of the cluster come and go with `work`, the registered nodes
with `register` and `forget`. The ledger claims a container before it is made, so every managed
container has a claim. URLs, join codes and what the calls answer are left out.
-/

namespace SparkDeck.Onboarding

/-- What the node owns. -/
structure Workloads where
  saved : ℕ
  legacy : ℕ
  managed : Finset String
  claims : Finset String
  claimed : managed ⊆ claims

/-- Nothing. -/
structure Workloads.Empty (w : Workloads) : Prop where
  saved : w.saved = 0
  legacy : w.legacy = 0
  managed : w.managed = ∅
  claims : w.claims = ∅

/-- No more than `v`. -/
structure Workloads.Within (w v : Workloads) : Prop where
  saved : w.saved ≤ v.saved
  legacy : w.legacy ≤ v.legacy
  managed : w.managed ⊆ v.managed
  claims : w.claims ⊆ v.claims

instance (w v : Workloads) : Decidable (w.Within v) :=
  decidable_of_iff (w.saved ≤ v.saved ∧ w.legacy ≤ v.legacy ∧ w.managed ⊆ v.managed ∧
    w.claims ⊆ v.claims) ⟨fun ⟨a, b, c, d⟩ => ⟨a, b, c, d⟩, fun ⟨a, b, c, d⟩ => ⟨a, b, c, d⟩⟩

/-- `controller.json`, with the agent credential its controller was given. -/
structure Member where
  serial : ℕ
  token : Option ℕ
  deriving DecidableEq

inductive Kind where
  | register
  | join
  | leave
  | detach
  deriving DecidableEq

/-- Whether it takes `_membership_lock`. -/
def Kind.locks : Kind → Bool
  | .register => true
  | .join => true
  | _ => false

inductive Stage where
  /-- For the membership lock. -/
  | queued
  /-- `list_containers`, and whether the ledger had claims before. -/
  | inventory (claims : Bool)
  /-- The requests about the identity of the controller. -/
  | network
  | registering
  | adopting
  | unregistering
  /-- `_revoke_community_consent` -/
  | consent
  | pairing
  | status
  | done (ok : Bool)
  deriving DecidableEq

/-- What a join saved, and what the node had then. -/
structure Saved where
  member : Member
  work : Workloads
  nodes : ℕ

structure Call where
  kind : Kind
  stage : Stage
  /-- The assignment when a leave or a detach began. -/
  examined : Option Member
  /-- The pairing code of a join that is on its way. -/
  sent : Option ℕ
  /-- The credential its controller has. -/
  grant : Option ℕ
  saved : Option Saved
  /-- The credential it revoked. -/
  revoked : Option ℕ
  /-- The assignment it cleared. -/
  cleared : Option Member

def Call.new (kind : Kind) (stage : Stage) (examined : Option Member) : Call :=
  ⟨kind, stage, examined, none, none, none, none, none⟩

structure State where
  assignment : Option Member
  token : ℕ
  work : Workloads
  /-- `node_registry.nodes` -/
  nodes : ℕ
  serial : ℕ
  holder : Option ℕ
  calls : List Call

/-- What becomes of the end of a leave or a detach. -/
inductive Outcome where
  | consentFails
  | revokeFails
  | clearFails
  | adoptFails
  | ok
  deriving DecidableEq

inductive Act where
  | begin (kind : Kind)
  | acquire (i : ℕ)
  /-- Docker answers, or it does not. -/
  | inventory (i : ℕ) (docker : Bool)
  | reach (i : ℕ) (ok : Bool)
  /-- The controller pairs with this node. -/
  | pair (i : ℕ)
  | answer (i : ℕ) (ok : Bool)
  | adopted (i : ℕ) (ok : Bool)
  | unregistered (i : ℕ) (ok : Bool)
  | finish (i : ℕ) (outcome : Outcome)
  | paired (i : ℕ) (added : ℕ) (ok : Bool)
  | statusDone (i : ℕ) (ok : Bool)
  | work (w : Workloads)
  | forget (nodes : ℕ)

variable {s : State}

def State.put (s : State) (i : ℕ) (c : Call) : State := { s with calls := s.calls.set i c }

/-- Call `i` is over, and gives up the lock if it has it. -/
def State.close (s : State) (i : ℕ) (c : Call) (ok : Bool) : State :=
  { s.put i { c with stage := .done ok } with
    holder := if c.kind.locks then none else s.holder }

/-- Saved and legacy deployments, which are looked at before any await. -/
def Workloads.deployments (w : Workloads) : Bool := decide (w.saved ≠ 0) || decide (w.legacy ≠ 0)

/-- Managed containers and pending claims. -/
def Workloads.containers (w : Workloads) : Bool :=
  decide (w.managed ≠ ∅) || decide (w.claims \ w.managed ≠ ∅)

/-- A call up to its first await. -/
def State.begin (s : State) (kind : Kind) : Call :=
  match kind with
  | .register => .new .register .queued none
  | .join => .new .join .queued none
  | .leave =>
    match s.assignment with
    | none => .new .leave .status none
    | some m =>
      .new .leave (if s.work.deployments then .done false else .inventory (s.work.claims ≠ ∅)) m
  | .detach =>
    .new .detach (if s.work.deployments then .done false else .inventory (s.work.claims ≠ ∅))
      s.assignment

/-- What has the lock goes on to its first await. -/
def State.acquire (s : State) (i : ℕ) (c : Call) : State :=
  if c.kind = .register then
    if s.assignment.isSome then s.close i c false
    else { s.put i { c with stage := .pairing } with holder := some i }
  else
    if s.assignment.isSome then s.close i c false
    else if s.work.deployments then s.close i c false
    else
      { s.put i { c with stage := .inventory (s.work.claims ≠ ∅) } with holder := some i }

/-- Whether `_assert_no_owned_workloads` passes. -/
def State.unowned (s : State) (kind : Kind) (claims docker : Bool) : Bool :=
  if docker then !s.work.containers
  else if kind = .join then !claims else false

/-- What follows the check of the workloads. -/
def State.checked (s : State) (i : ℕ) (c : Call) (claims docker : Bool) : State :=
  if s.unowned c.kind claims docker then
    match c.kind with
    | .join => if s.nodes = 0 then s.put i { c with stage := .network } else s.close i c false
    | .leave => s.put i { c with stage := .unregistering }
    | _ => s.put i { c with stage := .consent }
  else s.close i c false

/-- `assignment.save` -/
def State.save (s : State) (i : ℕ) (c : Call) : State :=
  let m : Member := ⟨s.serial, c.grant⟩
  { s.put i { c with stage := .adopting, saved := some ⟨m, s.work, s.nodes⟩ } with
    assignment := some m
    serial := s.serial + 1 }

/-- `revoke_remote_access` and `assignment.clear`, as far as they get. -/
def State.finish (s : State) (i : ℕ) (c : Call) : Outcome → State
  | .consentFails => s.close i c false
  | .revokeFails => s.close i c false
  | .clearFails =>
    { s with token := s.token + 1 }.close i { c with revoked := some s.token } false
  | .adoptFails =>
    { s with token := s.token + 1, assignment := none }.close i
      { c with revoked := some s.token, cleared := s.assignment } false
  | .ok =>
    let s' := { s with token := s.token + 1, assignment := none }
    let c' := { c with revoked := some s.token, cleared := s.assignment }
    if c.kind = .leave then s'.put i { c' with stage := .status } else s'.close i c' true

/-- A step of call `i`. -/
def stepCall (s : State) (i : ℕ) (c : Call) : Act → Option State
  | .acquire _ =>
    if c.stage = .queued ∧ s.holder = none then some (s.acquire i c) else none
  | .inventory _ docker =>
    match c.stage with
    | .inventory claims => some (s.checked i c claims docker)
    | _ => none
  | .reach _ ok =>
    if c.stage = .network then
      if ok then some (s.put i { c with stage := .registering, sent := some s.token })
      else some (s.close i c false)
    else none
  | .pair _ =>
    if c.sent = some s.token then
      some { s.put i { c with sent := none, grant := some (s.token + 1) } with
        token := s.token + 1 }
    else none
  | .answer _ ok =>
    if c.stage = .registering then
      if ok then some (s.save i c) else some (s.close i c false)
    else none
  | .adopted _ ok =>
    if c.stage = .adopting then
      if ok then some (s.put i { c with stage := .status }) else some (s.close i c false)
    else none
  | .unregistered _ ok =>
    if c.stage = .unregistering then
      if ok then some (s.put i { c with stage := .consent }) else some (s.close i c false)
    else none
  | .finish _ outcome => if c.stage = .consent then some (s.finish i c outcome) else none
  | .paired _ added ok =>
    if c.stage = .pairing then
      if ok then some { s.put i { c with stage := .status } with nodes := s.nodes + added }
      else some { s.close i c false with nodes := s.nodes + added }
    else none
  | .statusDone _ ok => if c.stage = .status then some (s.close i c ok) else none
  | _ => none

/-- The call a step is about. -/
def Act.subject : Act → Option ℕ
  | .begin _ => none
  | .work _ => none
  | .forget _ => none
  | .acquire i => some i
  | .inventory i _ => some i
  | .reach i _ => some i
  | .pair i => some i
  | .answer i _ => some i
  | .adopted i _ => some i
  | .unregistered i _ => some i
  | .finish i _ => some i
  | .paired i _ _ => some i
  | .statusDone i _ => some i

def step (s : State) (a : Act) : Option State :=
  match a with
  | .begin kind => some { s with calls := s.calls ++ [s.begin kind] }
  | .work w => some { s with work := w }
  | .forget nodes => if nodes ≤ s.nodes then some { s with nodes := nodes } else none
  | a =>
    match a.subject with
    | some i =>
      match s.calls[i]? with
      | some c => stepCall s i c a
      | none => none
    | none => none

/-! ## What is claimed of every state -/

/-- It has changed neither the role nor the access. -/
structure Call.Unchanged (c : Call) : Prop where
  saved : c.saved = none
  revoked : c.revoked = none
  cleared : c.cleared = none

instance (c : Call) : Decidable c.Unchanged :=
  decidable_of_iff (c.saved = none ∧ c.revoked = none ∧ c.cleared = none)
    ⟨fun ⟨a, b, d⟩ => ⟨a, b, d⟩, fun ⟨a, b, d⟩ => ⟨a, b, d⟩⟩

structure Orderly (s : State) : Prop where
  /-- Only the assignment that was examined is cleared. -/
  cleared : ∀ (i : ℕ) (c : Call) (m : Member), s.calls[i]? = some c → c.cleared = some m →
    c.examined = some m
  /-- No credential of another membership is revoked. -/
  revoked : ∀ (i j : ℕ) (c d : Call) (t : ℕ) (v : Saved), s.calls[i]? = some c →
    s.calls[j]? = some d → c.revoked = some t → d.saved = some v → v.member.token = some t →
    c.examined = some v.member
  /-- A node that owns or controls something does not join. -/
  unowned : ∀ (j : ℕ) (d : Call) (v : Saved), s.calls[j]? = some d → d.saved = some v →
    v.work.Empty ∧ v.nodes = 0
  /-- The former controller has no access. -/
  left : ∀ (i : ℕ) (c : Call) (m : Member), s.calls[i]? = some c → c.kind.locks = false →
    c.stage = .done true → c.examined = some m → s.assignment = none → m.token ≠ some s.token
  /-- What raises has changed nothing. -/
  raised : ∀ (i : ℕ) (c : Call), s.calls[i]? = some c → c.stage = .done false → c.Unchanged

/-! ## Where the calls get in each other's way -/

/-- A join between its first check and its save. -/
def Call.joining (c : Call) : Bool :=
  decide (c.kind = .join) &&
    match c.stage with
    | .inventory _ => true
    | .network => true
    | .registering => true
    | _ => false

/-- A leave or a detach that has not come to its end. -/
def Call.leaving (c : Call) : Bool :=
  !c.kind.locks &&
    match c.stage with
    | .inventory _ => true
    | .unregistering => true
    | .consent => true
    | _ => false

/-- No leave or detach runs when a join passes its first check. -/
def Passes (s : State) : Option Call → Prop
  | some c => c.kind = .join → s.assignment = none → ∀ d ∈ s.calls, d.leaving = false
  | none => True

/-- It may still fail. -/
def Undecided : Option Call → Prop
  | some c => c.Unchanged
  | none => True

/-- What nobody sees to: that no leave or detach runs while a join passes from its first check to
its save; that no workload comes up meanwhile; and that what follows the change of the membership
does not fail. -/
def Alone (s : State) : Act → Prop
  | .acquire i => Passes s s.calls[i]?
  | .begin kind => kind = .detach → ∀ d ∈ s.calls, d.joining = false
  | .work w => (∃ d ∈ s.calls, d.joining) → w.Within s.work
  | .adopted _ ok => ok
  | .finish _ outcome => outcome ≠ .clearFails ∧ outcome ≠ .adoptFails
  | .statusDone i ok => ok ∨ Undecided s.calls[i]?
  | _ => True

instance (s : State) : ∀ c, Decidable (Passes s c)
  | some _ => inferInstanceAs (Decidable (_ → _ → ∀ _ ∈ _, _))
  | none => isTrue trivial

instance : ∀ c, Decidable (Undecided c)
  | some c => inferInstanceAs (Decidable c.Unchanged)
  | none => isTrue trivial

instance (s : State) : ∀ a, Decidable (Alone s a)
  | .acquire _ => inferInstanceAs (Decidable (Passes _ _))
  | .begin _ => inferInstanceAs (Decidable (_ → ∀ _ ∈ _, _))
  | .work _ => inferInstanceAs (Decidable (_ → _))
  | .adopted _ _ => inferInstanceAs (Decidable (_ = _))
  | .finish _ _ => inferInstanceAs (Decidable (_ ∧ _))
  | .statusDone _ _ => inferInstanceAs (Decidable (_ ∨ _))
  | .inventory _ _ => isTrue trivial
  | .reach _ _ => isTrue trivial
  | .pair _ => isTrue trivial
  | .answer _ _ => isTrue trivial
  | .unregistered _ _ => isTrue trivial
  | .paired _ _ _ => isTrue trivial
  | .forget _ => isTrue trivial

/-- Nobody calls yet; the node may be a worker, whose controller has a credential or has lost it. -/
structure Init (s : State) : Prop where
  calls : s.calls = []
  holder : s.holder = none
  token : ∀ m t, s.assignment = some m → m.token = some t → t ≤ s.token

end SparkDeck.Onboarding
