import Mathlib.Data.List.Sort
import Mathlib.Data.Rat.Lemmas
import SparkDeck.Lib.Transition

/-!
# The community side of the store

Model of the settings, the samples and the outbox of `SparkDeckStore` (`sparkdeck/storage.py`):
`add_benchmark`, `add_benchmark_if_consented`, their coordinated variants, `set_community_consent`,
`revoke_community_membership`, `bind_community_contributor`, `retry_outbox`,
`promote_outbox_for_pairing`, `outbox_entries`, `mark_outbox_synced`, `mark_outbox_failed`,
`delete_benchmark` and `delete_benchmark_model`. A pairing and the opening of a store (`_migrate`)
are operations too.

* An operation is one transaction under the store's lock. Where it raises, everything is rolled
  back: it is no step, and its result is `none`.
* `Python` has what is the language's: `str.strip`, `uuid.UUID`, and `int` of a text. Numbers in a
  configuration are finite. `uuid4` gives the identifier that the operation is labelled with, and the
  clock the time.
* A sample has what its eligibility, its order and its model deletion look at. Whether the insertion
  of a chart point violates a constraint is the label's (`pointAccepted`); the points themselves are
  left out, and so are the settings that `extra_settings` writes: the callers' seen markers.
-/

namespace SparkDeck.Consent

/-- A value of a configuration. -/
inductive Value where
  | absent
  | bool (b : Bool)
  | int (n : ℤ)
  | float (q : ℚ)
  | text (s : String)
  /-- A list or a dictionary. -/
  | other
  deriving DecidableEq

/-- `BenchmarkSample` -/
structure Sample where
  id : String
  createdAt : ℚ
  eligibleForCommunity : Bool
  repository : Option String
  inputTokens : ℤ
  generationTps : Option ℚ
  tensorParallelSize : Value
  concurrency : Value
  deriving DecidableEq

structure Python where
  strip : String → String
  /-- `text.lstrip("+-").isdigit()` -/
  isDigits : String → Bool
  int : String → Option ℤ
  uuid : String → Option String

section Eligibility

variable (py : Python)

/-- `_positive_integer` -/
def positiveInteger (v : Value) : Option ℤ :=
  let parsed :=
    match v with
    | .int n => some n
    | .float q => some (q.num.tdiv q.den)
    | .text s => py.int s
    | _ => none
  parsed.filter fun n => 0 < n ∧ n ≤ 100000000

/-- `_community_prompt_tokens` -/
def promptTokens (n : ℤ) : Option ℤ := (positiveInteger py (.int n)).filter (· < 10000)

/-- `_positive_speed` -/
def positiveSpeed (v : Option ℚ) : Option ℚ := v.filter (0 < ·)

/-- `community_tensor_parallel_size`; the outer `none` is an exception of `int`. -/
def tensorParallelSize (v : Value) : Option (Option ℤ) :=
  let bounded := fun n : ℤ => if 0 < n ∧ n ≤ 1024 then some n else none
  match v with
  | .absent => some (some 1)
  | .int n => some (bounded n)
  | .float q => some (if q.den = 1 then bounded q.num else none)
  | .text s =>
    if py.strip s = "" ∨ py.isDigits (py.strip s) = false then some none
    else (py.int (py.strip s)).map bounded
  | _ => some none

/-- The dimensions of a sample are those that the community compares. -/
def comparable (x : Sample) : Option Bool :=
  if py.strip (x.repository.getD "") ≠ "" ∧ (promptTokens py x.inputTokens).isSome ∧
      (positiveSpeed x.generationTps).isSome then
    (tensorParallelSize py x.tensorParallelSize).map fun size =>
      size.isSome && (x.concurrency = .absent || positiveInteger py x.concurrency = some 1)
  else some false

/-- `_community_sample_eligible` -/
def sampleEligible (x : Sample) : Option Bool :=
  if x.eligibleForCommunity then comparable py x else some false

end Eligibility

/-! ## Tables -/

/-- A row of `benchmark_samples`. -/
structure Row where
  sample : Sample
  eligible : Bool
  clusterId : Option String
  generation : Option ℕ
  deriving DecidableEq

inductive Status where
  | pending
  | failed
  | waitingForAccount
  | synced
  deriving DecidableEq

/-- A row of `upload_outbox`. -/
structure Entry where
  sampleId : String
  status : Status
  attempts : ℕ
  nextAttempt : Option ℚ
  lastError : Option String
  createdAt : ℚ
  deriving DecidableEq

structure Store where
  samples : List Row
  outbox : List Entry
  /-- `community_consent` -/
  consent : Bool
  /-- `community_consent_generation` -/
  generation : ℕ
  /-- `telemetry_cluster_id` -/
  clusterId : Option String
  /-- `community_contributor_sub` -/
  contributor : Option String
  /-- `device_pairing` has the status `paired`. -/
  paired : Bool
  /-- The `sub` of `device_pairing`. -/
  pairedSub : Option String
  deriving DecidableEq

def Entry.unsent (e : Entry) : Bool := e.status ≠ .synced

/-- `community_consent_snapshot` -/
structure Snapshot where
  enabled : Bool
  generation : ℕ
  clusterId : Option String

def Store.snapshot (s : Store) : Snapshot := ⟨s.consent, s.generation, s.clusterId⟩

/-- An identifier that is true. -/
def truthy (value : Option String) : Option String := value.filter (· ≠ "")

namespace Store

variable (py : Python) (s : Store)

/-- `community_eligible` of a row. -/
def communityEligible (x : Sample) (clusterId : Option String) : Option Bool :=
  if (truthy clusterId).isSome then sampleEligible py x else some false

/-- `_insert_benchmark_locked`; the constraint on ids may fail. -/
def insert (x : Sample) (clusterId : Option String) (generation : Option ℕ) :
    Option (Bool × Store) :=
  if s.samples.any fun r => r.sample.id = x.id then none
  else do
    let eligible ← communityEligible py x clusterId
    some (eligible,
      { s with
        samples := s.samples ++ [⟨x, eligible, clusterId, if eligible then generation else none⟩] })

/-- `_queue_benchmark_locked` -/
def queue (x : Sample) : Option Store :=
  if s.outbox.any fun e => e.sampleId = x.id then none
  else
    some { s with
      outbox := s.outbox ++
        [⟨x.id, if s.paired then .pending else .waitingForAccount, 0, none, none, x.createdAt⟩] }

/-- `add_benchmark`, and `add_coordinated_benchmark` with a point that is accepted. -/
def addBenchmark (x : Sample) (queued : Bool) : Option Store := do
  let clusterId := if queued && s.consent then s.clusterId else none
  let (eligible, s') ←
    s.insert py x clusterId (if (truthy clusterId).isSome then some s.generation else none)
  if queued && eligible then s'.queue x else some s'

/-- `add_benchmark_if_consented`, and its coordinated variant. -/
def addIfConsented (x : Sample) (expected : ℕ) : Option (Bool × Store) :=
  if s.consent = false ∨ s.generation ≠ expected ∨ (truthy s.clusterId).isNone = true then
    some (false, s)
  else do
    let ok ← sampleEligible py x
    if ok then
      let (eligible, s') ← s.insert py x s.clusterId (some s.generation)
      if eligible then
        let s'' ← s'.queue x
        some (true, s'')
      else some (false, s')
    else some (false, s)

/-- `DELETE FROM upload_outbox` of what is not sent. -/
def purge : Store := { s with outbox := s.outbox.filter fun e => !e.unsent }

/-- The identity that `set_community_consent` goes on with. -/
def chosenCluster (enabled : Bool) (given : Option String) (fresh : String) :
    Option (Option String) :=
  if enabled then
    match given, s.clusterId with
    | some id, _ => (py.uuid id).map some
    | none, none => some (some fresh)
    | none, some id => (py.uuid id).map some
  else some s.clusterId

/-- `set_community_consent` -/
def setConsent (enabled : Bool) (given : Option String) (fresh : String) : Option Store := do
  let clusterId ← s.chosenCluster py enabled given fresh
  let identityChanged := enabled && clusterId ≠ s.clusterId
  let stateChanged := enabled ≠ s.consent
  let s' : Store :=
    { s with
      consent := enabled
      generation := s.generation + if stateChanged || identityChanged then 1 else 0
      clusterId := if enabled then clusterId else s.clusterId }
  some (if !enabled || identityChanged then s'.purge else s')

/-- `revoke_community_membership` -/
def revoke : Store :=
  { s with consent := false, generation := s.generation + 1, clusterId := none }.purge

/-- `bind_community_contributor` -/
def bind (sub : String) : Option Store :=
  if sub = "" then none
  else
    match s.contributor with
    | some previous =>
      if previous ≠ sub then
        some { s.purge with generation := s.generation + 1, contributor := some sub }
      else some s
    | none => some { s with contributor := some sub }

/-- `UPDATE upload_outbox SET ... WHERE ...` -/
def updateOutbox (p : Entry → Bool) (f : Entry → Entry) : Store :=
  { s with outbox := s.outbox.map fun e => if p e then f e else e }

/-- `retry_outbox` -/
def retry : Store :=
  s.updateOutbox (fun e => e.status = .failed || e.status = .waitingForAccount) fun e =>
    { e with
      status := if s.paired then .pending else .waitingForAccount
      nextAttempt := none
      lastError := none }

/-- `promote_outbox_for_pairing` -/
def promote : Store :=
  s.updateOutbox (fun e => e.status = .waitingForAccount) fun e => { e with status := .pending }

/-- `mark_outbox_synced` -/
def markSynced (ids : List String) : Store :=
  s.updateOutbox (fun e => ids.contains e.sampleId) fun e =>
    { e with status := .synced, lastError := none, nextAttempt := none }

/-- The failure of one entry. -/
def Entry.fail (error : String) (now : ℚ) (e : Entry) : Entry :=
  { e with
    status := .failed
    attempts := e.attempts + 1
    nextAttempt := some (now + (min 3600 (15 * 2 ^ min e.attempts 8) : ℕ))
    lastError := some (error.take 500).toString }

/-- `mark_outbox_failed` -/
def markFailed (error : String) (now : ℚ) : List String → Store → Store
  | [], s => s
  | id :: ids, s =>
    markFailed error now ids (s.updateOutbox (fun e => e.sampleId = id) (Entry.fail error now))

/-- `DELETE FROM benchmark_samples`; the outbox rows of a sample go with it. -/
def delete (p : Row → Bool) : Store :=
  { s with
    samples := s.samples.filter fun r => !p r
    outbox := s.outbox.filter fun e =>
      !s.samples.any fun r => p r && decide (r.sample.id = e.sampleId) }

/-- The row has a payload. -/
def uploadable (r : Row) : Option Bool :=
  if (r.clusterId.bind py.uuid).isSome then comparable py r.sample else some false

/-- `outbox_entries`: the ids. -/
def outboxEntries (limit : ℕ) (now : ℚ) : List String :=
  let due := s.outbox.filter fun e =>
    e.status = .pending || (e.status = .failed && (e.nextAttempt.all fun t => t ≤ now))
  let wanted := (due.insertionSort fun a b => a.createdAt ≤ b.createdAt).take (min 200 (max 1 limit))
  (wanted.map Entry.sampleId).filter fun id =>
    s.samples.any fun r => r.sample.id = id && uploadable py r = some true

/-- The rows that an older version took for eligible. -/
def invalid (r : Row) : Bool :=
  r.eligible && ((promptTokens py r.sample.inputTokens).isNone ||
    (positiveSpeed r.sample.generationTps).isNone || (r.clusterId.bind py.uuid).isNone ||
    tensorParallelSize py r.sample.tensorParallelSize = some none)

/-- `_migrate` of a database; its consent may be to an older contract. -/
def migrate (sameContract : Bool) : Store :=
  let s :=
    if sameContract then s
    else
      { s with consent := false, generation := s.generation + if s.consent then 1 else 0 }.purge
  let s :=
    { s with
      contributor :=
        if s.paired then s.contributor.or (truthy s.pairedSub) else s.contributor }
  { s with
    samples := s.samples.map fun r => if invalid py r then { r with eligible := false } else r
    outbox := s.outbox.filter fun e =>
      !(e.unsent && s.samples.any fun r => invalid py r && decide (r.sample.id = e.sampleId)) }

end Store

/-! ## Operations -/

inductive Op where
  | addBenchmark (x : Sample) (queue : Bool)
  | addBenchmarkIfConsented (x : Sample) (expected : ℕ)
  | addCoordinated (x : Sample) (queue pointAccepted : Bool)
  | addCoordinatedIfConsented (x : Sample) (expected : ℕ) (pointAccepted : Bool)
  | setConsent (enabled : Bool) (clusterId : Option String) (fresh : String)
  | revoke
  | bind (sub : String)
  | retry
  | promote
  | markSynced (ids : List String)
  | markFailed (ids : List String) (error : String) (now : ℚ)
  | deleteBenchmark (id : String)
  | deleteModel (repository : String)
  | setPairing (paired : Bool) (sub : Option String)
  | open (sameContract : Bool)

variable (py : Python)

def step (s : Store) : Op → Option Store
  | .addBenchmark x queue => s.addBenchmark py x queue
  | .addBenchmarkIfConsented x expected => (s.addIfConsented py x expected).map Prod.snd
  | .addCoordinated x queue pointAccepted =>
    if pointAccepted then s.addBenchmark py x queue else none
  | .addCoordinatedIfConsented x expected pointAccepted =>
    match s.addIfConsented py x expected with
    | some (true, s') => if pointAccepted then some s' else none
    | some (false, s') => some s'
    | none => none
  | .setConsent enabled clusterId fresh => s.setConsent py enabled clusterId fresh
  | .revoke => some s.revoke
  | .bind sub => s.bind sub
  | .retry => some s.retry
  | .promote => some s.promote
  | .markSynced ids => some (s.markSynced ids)
  | .markFailed ids error now => some (Store.markFailed error now ids s)
  | .deleteBenchmark id => some (s.delete fun r => r.sample.id = id)
  | .deleteModel repository =>
    some (s.delete fun r => py.strip (r.sample.repository.getD "") = repository)
  | .setPairing paired sub => some { s with paired := paired, pairedSub := sub }
  | .open sameContract => some (s.migrate py sameContract)

/-- A new database that has been opened. -/
def opened : Store := ⟨[], [], false, 0, none, none, false, none⟩

end SparkDeck.Consent
