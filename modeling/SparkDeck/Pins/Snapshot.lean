import Mathlib.Algebra.Order.Ring.Rat
import SparkDeck.Lib.Assoc
import SparkDeck.Lib.Transition

/-!
# Source-IP pins

`proxy` up to the choice of a deployment (`sparkdeck/service.py`): `_source_rule_for_request`,
`_pin_source_route` with `_source_routed_deployment`, `_source_routing_snapshot` and
`_refresh_source_routing_snapshot`.

* Between two awaits a request runs alone, so a step takes it from one to the next. It awaits the
  refresh of a snapshot, and nothing else.
* `N` is the type of names: of ids, aliases and served models. What a record says apart from them is
  `X`; the signature covers the records that are modelled, whole.
* What a refresh observes is up to the step (`observed`), also that it fails or times out (`fails`). A
  refresh is only cancelled by `close`.
* `ended` and `cancelled` refreshes are not tasks any more. The tasks that wait for one go on before
  a refresh of the same target that was created later begins: they were scheduled before it.
* `used` is what the scan of a request has looked at; it is not state of the program.
-/

namespace SparkDeck.Pins

structure Rule (N : Type*) where
  requestedModel : N
  enabled : Bool
  deploymentId : N
  instanceId : Option ℕ
  nodeIds : List N

/-- What a rule pins to; also the key of its snapshot. -/
abbrev Target (N : Type*) := N × Option ℕ × List N

def Rule.target {N : Type*} (rule : Rule N) : Target N :=
  (rule.deploymentId, rule.instanceId, rule.nodeIds)

/-- A row of the store. -/
structure Stored (N X : Type*) where
  aliasName : Option N
  /-- The models that its settings serve. -/
  served : List N
  /-- A managed deployment of a supported runtime. -/
  supported : Bool
  managerId : Option N
  other : X
  deriving DecidableEq

/-- The deployment of the manager for a row of the store. -/
structure Linked (N X : Type*) where
  id : N
  /-- The models that its launch settings serve. -/
  served : List N
  dirty : Bool
  other : X
  deriving DecidableEq

/-- `_source_routing_config_signature` -/
abbrev Signature (N X : Type*) := Stored N X × Option (Linked N X)

/-- What a snapshot says of its target. -/
structure Row (N : Type*) where
  served : List N
  available : Bool

structure Entry (N X : Type*) where
  expiry : ℚ
  /-- There is none when the refresh has failed. -/
  row : Option (Row N)
  signature : Signature N X

inductive Phase where
  | created
  | running
  | ended
  | cancelled
  deriving DecidableEq

structure Refresh (N X : Type*) where
  key : Target N
  signature : Signature N X
  phase : Phase

def Refresh.live {N X : Type*} (x : Refresh N X) : Prop := x.phase = .created ∨ x.phase = .running

instance {N X : Type*} (x : Refresh N X) : Decidable x.live := inferInstanceAs (Decidable (_ ∨ _))

abbrev Seen (N X : Type*) := Entry N X × Row N

/-- The local variables of `_source_rule_for_request`. -/
structure Scan (N X : Type*) where
  matched : List (Rule N)
  owners : List (N × Option (Stored N X))
  observed : List (Target N × Seen N X)

inductive Stage (N X : Type*) where
  /-- `_source_rule_for_request` waits for a snapshot for `rule`; it has seen `view` of the manager. -/
  | scans (rule : Rule N) (rest : List (Rule N)) (c : Scan N X) (stored : Stored N X)
      (view : Option (Linked N X)) (task : ℕ)
  /-- `_source_routed_deployment` waits for the snapshot of the pinned target. -/
  | pins (rule : Rule N) (stored : Stored N X) (task : ℕ)
  | ordinary
  | sent (rule : Rule N) (entry : Entry N X)
  | rejected

structure Request (N X : Type*) where
  name : N
  /-- The rules of the caller, as the request has read them. -/
  rules : List (Rule N)
  stage : Stage N X
  used : List (Target N × Seen N X)

structure State (C N X : Type*) where
  rules : C → List (Rule N)
  stored : N → Option (Stored N X)
  linked : N → Option (Linked N X)
  now : ℚ
  /-- `_source_routing_cache` -/
  cache : List (Target N × Entry N X)
  /-- `_source_routing_refresh_tasks` -/
  refreshes : List (Target N × ℕ)
  tasks : List (Refresh N X)
  requests : List (Request N X)

inductive Act (C N X : Type*) where
  | request (caller : C) (name : N)
  | resume (r : ℕ)
  | abandon (r : ℕ)
  | begins (t : ℕ)
  | observed (t : ℕ) (row : Row N)
  | fails (t : ℕ)
  | cancel (t : ℕ)
  | setRules (caller : C) (rules : List (Rule N))
  | setStored (id : N) (stored : Option (Stored N X))
  | setLinked (id : N) (linked : Option (Linked N X))
  | clock (now : ℚ)

section names

variable {N X : Type*} (st : Stored N X) (linked : Option (Linked N X))

/-- `_deployment_public_model_ids` of a saved deployment. -/
def publicIds : List N :=
  let configured := match linked with
    | some l => l.served
    | none => st.served
  if configured.isEmpty then st.aliasName.toList else configured

/-- The names that a deployment owns, whether it is there or not. -/
def ownedModels (id : N) : List N := id :: (st.aliasName.toList ++ publicIds st linked)

/-- `_deployment_public_model_ids` of an observed deployment. -/
def observedIds (row : Row N) : List N :=
  if row.served.isEmpty then publicIds st linked else row.served

end names

variable {C N X : Type*} [DecidableEq C] [LinearOrder N] [DecidableEq X] (s : State C N X)

/-! ## Snapshots -/

inductive Look (N X : Type*) where
  | found (entry : Entry N X) (row : Row N)
  | unavailable
  | miss

/-- The cached snapshot, if it may be used. -/
def State.look (key : Target N) (st : Stored N X) : Look N X :=
  match Assoc.get s.cache key with
  | some e =>
    if s.now < e.expiry ∧ e.signature = (st, s.linked key.1) then
      match e.row with
      | some row => .found e row
      | none => .unavailable
    else .miss
  | none => .miss

/-- The refresh of a target, which is created unless there is one. -/
def State.join (key : Target N) (st : Stored N X) : Option (State C N X × ℕ) :=
  match Assoc.get s.refreshes key with
  | some t => some (s, t)
  | none =>
    if 128 ≤ s.refreshes.length then none
    else
      some ({ s with
        cache := if 128 ≤ s.cache.length then Assoc.pop s.cache else s.cache
        tasks := s.tasks ++ [⟨key, (st, s.linked key.1), .created⟩]
        refreshes := Assoc.set s.refreshes key s.tasks.length }, s.tasks.length)

/-- A refresh ends, and leaves the table. -/
def State.finish (t : ℕ) (x : Refresh N X) (e : Entry N X) : State C N X :=
  { s with
    tasks := s.tasks.set t { x with phase := .ended }
    refreshes := Assoc.erase s.refreshes x.key
    cache := Assoc.put 128 s.cache x.key e }

/-! ## The pinned deployment -/

/-- The checks of `_source_routed_deployment` on what it has. -/
def State.serves (name : N) (rule : Rule N) (st : Stored N X) (row : Row N) : Prop :=
  row.available ∧ st.supported ∧
    name ∈ rule.deploymentId :: (st.aliasName.toList ++ observedIds st (s.linked rule.deploymentId) row) ∧
    ∃ l ∈ s.linked rule.deploymentId, ∀ id ∈ st.managerId, id = l.id

instance (name : N) (rule : Rule N) (st : Stored N X) (row : Row N) :
    Decidable (s.serves name rule st row) :=
  inferInstanceAs (Decidable (_ ∧ _ ∧ _ ∧ _))

def State.answer (q : Request N X) (rule : Rule N) (st : Stored N X) (e : Entry N X) (row : Row N) :
    Request N X :=
  { q with stage := if s.serves q.name rule st row then .sent rule e else .rejected }

def Request.reject (q : Request N X) : Request N X := { q with stage := .rejected }

/-- `_source_routed_deployment`, up to its await or its end. -/
def State.pin (q : Request N X) (rule : Rule N) : State C N X × Request N X :=
  match s.stored rule.deploymentId with
  | none => (s, q.reject)
  | some st =>
    match s.look rule.target st with
    | .found e row => (s, s.answer q rule st e row)
    | .unavailable => (s, q.reject)
    | .miss =>
      match s.join rule.target st with
      | some (t, i) => (t, { q with stage := .pins rule st i })
      | none => (s, q.reject)

/-! ## The scan of the rules -/

def State.dirty (id : N) : Prop := ∃ l ∈ s.linked id, l.dirty

instance (id : N) : Decidable (s.dirty id) :=
  inferInstanceAs (Decidable (∃ l ∈ s.linked id, l.dirty))

/-- A record is read once. -/
def Scan.owner (c : Scan N X) (id : N) : Option (Stored N X) :=
  (Assoc.get c.owners id).getD (s.stored id)

def Scan.reads (c : Scan N X) (id : N) (o : Option (Stored N X)) : Scan N X :=
  { c with owners := Assoc.set c.owners id o }

def Scan.adds (c : Scan N X) (rule : Rule N) : Scan N X := { c with matched := c.matched ++ [rule] }

/-- A snapshot is looked at for a rule. -/
def Scan.sees (c : Scan N X) (name : N) (rule : Rule N) (st : Stored N X) (x : Seen N X) :
    Scan N X :=
  let c : Scan N X := { c with observed := Assoc.set c.observed rule.target x }
  if name ∈ observedIds st (s.linked rule.deploymentId) x.2 then c.adds rule else c

inductive Found (N X : Type*) where
  | ends (c : Scan N X)
  | waits (rule : Rule N) (rest : List (Rule N)) (c : Scan N X) (st : Stored N X)
  | rejects

/-- The loop of `_source_rule_for_request`, up to its await or its end. -/
def scan (name : N) : List (Rule N) → Scan N X → Found N X
  | [], c => .ends c
  | rule :: rest, c =>
    if rule.enabled then
      match c.owner s rule.deploymentId with
      | none => scan name rest (c.reads rule.deploymentId none)
      | some st =>
        let r := c.reads rule.deploymentId (some st)
        if name ∈ ownedModels st (s.linked rule.deploymentId) rule.deploymentId then
          scan name rest (r.adds rule)
        else if s.dirty rule.deploymentId then
          match Assoc.get c.observed rule.target with
          | some x => scan name rest (r.sees s name rule st x)
          | none =>
            match s.look rule.target st with
            | .found e row => scan name rest (r.sees s name rule st (e, row))
            | .unavailable => .rejects
            | .miss => .waits rule rest c st
        else scan name rest r
    else scan name rest c

/-- `min(matches, key=lambda rule: rule["requested_model"])` -/
def least (rule : Rule N) (rest : List (Rule N)) : Rule N :=
  rest.foldl (fun a b => if b.requestedModel < a.requestedModel then b else a) rule

/-- The end of `_source_rule_for_request`, and what `proxy` does with the rule. -/
def State.choose (q : Request N X) (c : Scan N X) : State C N X × Request N X :=
  let q := { q with used := c.observed }
  match c.matched with
  | [] => (s, { q with stage := .ordinary })
  | rule :: rest =>
    if ∀ other ∈ rest, other.target = rule.target then s.pin q (least rule rest) else (s, q.reject)

def State.goOn (q : Request N X) : Found N X → State C N X × Request N X
  | .ends c => s.choose q c
  | .rejects => (s, q.reject)
  | .waits rule rest c st =>
    match s.join rule.target st with
    | some (t, i) => (t, { q with stage := .scans rule rest c st (s.linked rule.deploymentId) i })
    | none => (s, q.reject)

def Request.exact (q : Request N X) : Option (Rule N) :=
  q.rules.find? fun rule => rule.requestedModel = q.name

def State.start (q : Request N X) : State C N X × Request N X :=
  match q.exact with
  | some rule => if rule.enabled then s.pin q rule else (s, { q with stage := .ordinary })
  | none => s.goOn q (scan s q.name q.rules ⟨[], [], []⟩)

/-- A request goes on after its await. -/
def State.resume (q : Request N X) (x : Refresh N X) : Option (State C N X × Request N X) :=
  match x.phase with
  | .created => none
  | .running => none
  | .cancelled => some (s, q.reject)
  | .ended =>
    match q.stage with
    | .scans rule rest c st _ _ =>
      match s.look rule.target st with
      | .found e row =>
        let r := c.reads rule.deploymentId (some st)
        some (s.goOn q (scan s q.name rest (r.sees s q.name rule st (e, row))))
      | _ => some (s, q.reject)
    | .pins rule st _ =>
      match s.look rule.target st with
      | .found e row => some (s, s.answer q rule st e row)
      | _ => some (s, q.reject)
    | _ => none

/-! ## Steps -/

/-- The task that a request waits for. -/
def Request.task? (q : Request N X) : Option ℕ :=
  match q.stage with
  | .scans _ _ _ _ _ t => some t
  | .pins _ _ t => some t
  | _ => none

/-- The refresh that a request waits for, as it stands. -/
def State.awaited (q : Request N X) : Option (Refresh N X) := q.task?.bind fun t => s.tasks[t]?

/-- Some request waits for a refresh of the target that has ended. -/
def State.due (key : Target N) : Bool :=
  s.requests.any fun q => (s.awaited q).any fun x => decide (x.phase = .ended ∧ x.key = key)

/-- The records of a target are as they were when the refresh was created. -/
def State.Unchanged (x : Refresh N X) : Prop :=
  ∃ st ∈ s.stored x.key.1, (st, s.linked x.key.1) = x.signature

instance (x : Refresh N X) : Decidable (s.Unchanged x) :=
  inferInstanceAs (Decidable (∃ st ∈ s.stored x.key.1, _))

def step : Act C N X → Option (State C N X)
  | .request caller name =>
    let p := s.start ⟨name, s.rules caller, .rejected, []⟩
    some { p.1 with requests := s.requests ++ [p.2] }
  | .resume r =>
    match s.requests[r]? with
    | some q =>
      match s.awaited q with
      | some x => (s.resume q x).map fun p => { p.1 with requests := s.requests.set r p.2 }
      | none => none
    | none => none
  | .abandon r =>
    match s.requests[r]? with
    | some q => if q.task?.isSome then some { s with requests := s.requests.set r q.reject } else none
    | none => none
  | .begins t =>
    match s.tasks[t]? with
    | some x =>
      if x.phase = .created ∧ s.due x.key = false then
        some { s with tasks := s.tasks.set t { x with phase := .running } }
      else none
    | none => none
  | .observed t row =>
    match s.tasks[t]? with
    | some x =>
      if x.phase = .running then
        some (s.finish t x
          (if s.Unchanged x then ⟨s.now + 4, some row, x.signature⟩
          else ⟨s.now + 1, none, x.signature⟩))
      else none
    | none => none
  | .fails t =>
    match s.tasks[t]? with
    | some x =>
      if x.phase = .running then some (s.finish t x ⟨s.now + 1, none, x.signature⟩) else none
    | none => none
  | .cancel t =>
    match s.tasks[t]? with
    | some x =>
      match x.phase with
      -- the coroutine has not begun, and its `finally` is not run
      | .created => some { s with tasks := s.tasks.set t { x with phase := .cancelled } }
      | .running =>
        some { s with
          tasks := s.tasks.set t { x with phase := .cancelled }
          refreshes := Assoc.erase s.refreshes x.key }
      | _ => none
    | none => none
  | .setRules caller rules => some { s with rules := Function.update s.rules caller rules }
  | .setStored id stored => some { s with stored := Function.update s.stored id stored }
  | .setLinked id linked => some { s with linked := Function.update s.linked id linked }
  | .clock now => if s.now ≤ now then some { s with now := now } else none

def init (rules : C → List (Rule N)) (stored : N → Option (Stored N X))
    (linked : N → Option (Linked N X)) (now : ℚ) : State C N X :=
  ⟨rules, stored, linked, now, [], [], [], []⟩

/-! ## What holds in a run -/

/-- A snapshot has not expired, and is of the records as they are. -/
def Fresh (key : Target N) (e : Entry N X) : Prop :=
  s.now < e.expiry ∧ ∃ st, s.stored key.1 = some st ∧ e.signature = (st, s.linked key.1)

/-- An enabled rule owns the name: by the records, or by the snapshot where the settings are dirty. -/
def Owns (used : List (Target N × Seen N X)) (name : N) (rule : Rule N) : Prop :=
  rule.enabled ∧ ∃ st, s.stored rule.deploymentId = some st ∧
    (name ∈ ownedModels st (s.linked rule.deploymentId) rule.deploymentId ∨
      s.dirty rule.deploymentId ∧ ∃ x, Assoc.get used rule.target = some x ∧
        name ∈ observedIds st (s.linked rule.deploymentId) x.2)

/-- A snapshot was looked at where the records do not tell. -/
def Looked (used : List (Target N × Seen N X)) (name : N) (rule : Rule N) : Prop :=
  rule.enabled → ∀ st, s.stored rule.deploymentId = some st →
    name ∉ ownedModels st (s.linked rule.deploymentId) rule.deploymentId →
      s.dirty rule.deploymentId → ∃ x, Assoc.get used rule.target = some x

/-- The request is sent to the target of the rule, or is rejected. -/
def Request.Toward (q : Request N X) (rule : Rule N) : Prop :=
  q.stage = .rejected ∨ (∃ st t, q.stage = .pins rule st t) ∨ ∃ e, q.stage = .sent rule e

/-- What the rules of the caller demand of a request whose rule has been looked up. -/
def Decided (q : Request N X) : Prop :=
  match q.exact with
  | some rule => if rule.enabled then q.Toward rule else q.stage = .ordinary
  | none =>
    q.stage = .rejected ∨
      (∀ x ∈ q.used, Fresh s x.1 x.2.1) ∧ (∀ rule ∈ q.rules, Looked s q.used q.name rule) ∧
        (q.stage = .ordinary ∧ (∀ rule ∈ q.rules, ¬Owns s q.used q.name rule) ∨
          ∃ rule ∈ q.rules, Owns s q.used q.name rule ∧ q.Toward rule ∧
            ∀ other ∈ q.rules, Owns s q.used q.name other → other.target = rule.target)

def Request.Scanning (q : Request N X) : Prop := ∃ rule rest c st view t,
  q.stage = .scans rule rest c st view t

/-- In a step the rule of a request is looked up, or it is sent, or it stays as it is. -/
structure Routed (t : State C N X) : Prop where
  decided : ∀ (r : ℕ) (q : Request N X), t.requests[r]? = some q → ¬q.Scanning →
    (∀ p, s.requests[r]? = some p → p.Scanning) → Decided t q
  kept : ∀ (r : ℕ) (p q : Request N X), s.requests[r]? = some p → t.requests[r]? = some q →
    ¬p.Scanning → q = p ∨ ∃ rule st i, p.stage = .pins rule st i ∧ q.Toward rule
  /-- What is sent is sent after a snapshot that is fresh. -/
  sent : ∀ (r : ℕ) (q : Request N X) (rule : Rule N) (e : Entry N X), t.requests[r]? = some q →
    q.stage = .sent rule e → (∀ p, s.requests[r]? = some p → p.stage ≠ .sent rule e) →
      Fresh t rule.target e

/-- The two tables are bounded, and no refresh in them has ended; who waits is woken. -/
structure Tables : Prop where
  cache : s.cache.length ≤ 128
  refreshes : s.refreshes.length ≤ 128
  table : ∀ x ∈ s.refreshes, ∃ task, s.tasks[x.2]? = some task ∧ task.key = x.1 ∧ task.live
  waits : ∀ q ∈ s.requests, ∀ t ∈ q.task?, ∃ task, s.tasks[t]? = some task ∧
    (task.live → Assoc.get s.refreshes task.key = some t)

/-- The request may still use the snapshot that its refresh has left. -/
def Answered (rule : Rule N) (t : ℕ) : Prop :=
  ∃ x ∈ s.tasks[t]?, x.phase = .ended ∧ ∃ e ∈ Assoc.get s.cache rule.target, e.row.isSome

/-- A record of the store may change: no request that waits has read it, but for one whose refresh
was created for what it has read, and has not ended. -/
def Stage.LetsStored (id : N) : Stage N X → Prop
  | scans rule _ c st view t =>
    Assoc.get c.owners id = none ∧ (rule.deploymentId = id → ¬Answered s rule t ∧
      ∀ x ∈ s.tasks[t]?, x.live → x.signature = (st, view))
  | pins rule _ t => rule.deploymentId = id → ¬Answered s rule t
  | _ => True

/-- The same, for a deployment of the manager: that is compared again after the refresh. -/
def Stage.LetsLinked (id : N) : Stage N X → Prop
  | scans rule _ c st view t =>
    Assoc.get c.owners id = none ∧ (rule.deploymentId = id →
      ∀ x ∈ s.tasks[t]?, x.live → x.signature = (st, view))
  | _ => True

/-- No snapshot expires that a scan has used and that is still to end. -/
def Stage.LetsTime (now : ℚ) : Stage N X → Prop
  | scans _ _ c _ _ _ => ∀ x ∈ c.observed, now < x.2.1.expiry
  | _ => True

/-- Nothing that a waiting request relies on changes, and no refresh is cancelled before it begins. -/
def Orderly : Act C N X → Prop
  | .setStored id _ => ∀ q ∈ s.requests, q.stage.LetsStored s id
  | .setLinked id _ => ∀ q ∈ s.requests, q.stage.LetsLinked s id
  | .clock now => ∀ q ∈ s.requests, q.stage.LetsTime now
  | .cancel t => ∀ x ∈ s.tasks[t]?, x.phase ≠ .created
  | _ => True

end SparkDeck.Pins
