import SparkDeck.Lib.Assoc
import SparkDeck.Community.RobustMean
import SparkDeck.Consent.Store

/-!
# Reading the outbox

Model of `outbox_entries`, `_community_contribution_averages` and `_upload_row`
(`sparkdeck/storage.py`) on the store of `Consent.Store`. The ids, the rows and the averages are
read one after another, each under the lock, and the operations of other threads come in between.

* A row also has what its cohort is recomputed from (`Label`) and the columns that its cohort is
  looked up by (`Columns`), both kept by the id of the sample. Every opening fills in the columns
  that a row of an older version lacks, with `refill`.
* `Reader` is how far a call has come. What a payload has beside its cohort and its speed is left
  out, and so are the means of all cohorts, which are computed for no payload.
-/

namespace SparkDeck.Consent

open Community

/-- `_community_quantization` of the model, and the hardware key. -/
structure Label where
  quantization : String
  hardwareKey : String

structure Columns where
  modelId : String
  quantization : String
  promptBucket : ℤ
  tensorParallelSize : ℤ
  deriving DecidableEq

/-- `hardware_cohort` -/
structure Cohort where
  columns : Columns
  hardwareKey : String
  deriving DecidableEq

inductive Reader where
  | idle
  | listed (wanted : List String)
  | read (wanted : List String) (payloads : List (String × Cohort))
  | done (entries : List (String × ℚ))
  | failed
  deriving DecidableEq

structure Desk where
  store : Store
  labels : String → Label
  columns : String → Option Columns
  reader : Reader

/-- `_COMMUNITY_CONTRIBUTOR_SAMPLE_LIMIT` -/
def sampleLimit : ℕ := 256

section Read

variable (py : Python) (refill : Sample → Label → Option Columns)

/-- `_community_prompt_bucket` -/
def promptBucket (n : ℤ) : Option ℤ :=
  (promptTokens py n).map fun tokens =>
    if tokens ≤ 800 then 400 else min 9000 (max 1000 ((tokens + 500) / 1000 * 1000))

/-- The columns of an eligible sample. -/
def columnsOf (x : Sample) (l : Label) : Option Columns :=
  match promptBucket py x.inputTokens, tensorParallelSize py x.tensorParallelSize with
  | some bucket, some (some size) =>
    some ⟨py.strip (x.repository.getD ""), l.quantization, bucket, size⟩
  | _, _ => none

namespace Desk

variable (d : Desk)

/-- `_upload_row`; the outer `none` is an exception. -/
def uploadRow (r : Row) : Option (Option Cohort) :=
  (Store.uploadable py r).map fun ok =>
    if ok then
      (columnsOf py r.sample (d.labels r.sample.id)).map fun columns =>
        ⟨columns, (d.labels r.sample.id).hardwareKey⟩
    else none

/-- What an insertion writes beside the row. -/
def insertRow (x : Sample) (l : Label) (t : Store) : Desk :=
  if d.store.samples.any fun r => r.sample.id = x.id then { d with store := t }
  else
    { d with
      store := t
      labels := Function.update d.labels x.id l
      columns := Function.update d.columns x.id
        (if t.samples.any fun r => decide (r.sample.id = x.id) && r.eligible then columnsOf py x l
          else none) }

/-- `UPDATE benchmark_samples SET community_model_id = ...` of an opening. -/
def refillColumns (id : String) : Option Columns :=
  match d.columns id with
  | some columns => some columns
  | none => (d.store.samples.find? fun r => decide (r.sample.id = id) && r.eligible).bind fun r =>
      refill r.sample (d.labels id)

/-- `SELECT sample_id FROM upload_outbox ... ORDER BY created_at LIMIT ?` -/
def due (limit : ℕ) (now : ℚ) : List String :=
  let due := d.store.outbox.filter fun e =>
    e.status = .pending || (e.status = .failed && (e.nextAttempt.all fun t => t ≤ now))
  ((due.insertionSort fun a b => a.createdAt ≤ b.createdAt).take
    (min 200 (max 1 limit))).map Entry.sampleId

/-- The payloads of the rows that are wanted; `none` is an exception. -/
def payloads (wanted : List String) : Option (List (String × Cohort)) :=
  let rows := d.store.samples.filter fun r => r.sample.id ∈ wanted
  if rows.any fun r => d.uploadRow py r = none then none
  else some (rows.filterMap fun r =>
    ((d.uploadRow py r).join).map fun cohort => (r.sample.id, cohort))

/-- The rows of a cohort under the current consent. -/
def cohortRows (c : Cohort) : List Row :=
  d.store.samples.filter fun r =>
    r.eligible && r.generation = some d.store.generation &&
      d.columns r.sample.id = some c.columns &&
      (d.labels r.sample.id).hardwareKey = c.hardwareKey

/-- `ORDER BY created_at DESC, id DESC` -/
def newer (a b : Row) : Prop :=
  b.sample.createdAt < a.sample.createdAt ∨
    (b.sample.createdAt = a.sample.createdAt ∧ b.sample.id ≤ a.sample.id)

instance : DecidableRel newer := fun _ _ => instDecidableOr

/-- The speeds that a cohort is averaged over; `none` is an exception. -/
def speeds (c : Cohort) : Option (List ℚ) :=
  let rows := ((d.cohortRows c).insertionSort newer).take sampleLimit
  if rows.any fun r => d.uploadRow py r = none then none
  else some (rows.filterMap fun r =>
    if (d.uploadRow py r).join.any fun cohort => cohort.hardwareKey = c.hardwareKey then
      positiveSpeed r.sample.generationTps
    else none)

/-- The payloads with the mean of their cohort. A cohort without a speed is not in the map, and the
lookup fails. -/
def averaged : List (String × Cohort) → Option (List (String × ℚ))
  | [] => some []
  | (id, c) :: payloads =>
    match d.speeds py c, averaged payloads with
    | some (speed :: speeds), some entries =>
      some ((id, outlierFilteredMean (speed :: speeds)) :: entries)
    | _, _ => none

/-- The entries in the order of the queue. -/
def finish (wanted : List String) (payloads : List (String × Cohort)) : Reader :=
  match d.averaged py payloads with
  | none => .failed
  | some entries =>
    .done (wanted.filterMap fun id => (Assoc.get entries id).map fun speed => (id, speed))

end Desk

inductive Act where
  | op (o : Op) (l : Label)
  | list (limit : ℕ) (now : ℚ)
  | rows
  | averages

def Op.sample : Op → Option Sample
  | .addBenchmark x _ | .addBenchmarkIfConsented x _ | .addCoordinated x _ _ |
    .addCoordinatedIfConsented x _ _ => some x
  | _ => none

/-- An operation of another thread. -/
def Desk.operate (d : Desk) (o : Op) (l : Label) (t : Store) : Desk :=
  match o with
  | .open _ => { d with store := t, columns := d.refillColumns refill }
  | o =>
    match o.sample with
    | some x => d.insertRow py x l t
    | none => { d with store := t }

/-- A call begins when there is none. -/
def act (d : Desk) : Act → Option Desk
  | .op o l => (step py d.store o).map fun t => d.operate py refill o l t
  | .list limit now =>
    match d.reader with
    | .listed _ | .read _ _ => none
    | _ =>
      let wanted := d.due limit now
      some { d with reader := if wanted = [] then .done [] else .listed wanted }
  | .rows =>
    match d.reader with
    | .listed wanted =>
      some { d with
        reader := match d.payloads py wanted with
          | none => .failed
          | some payloads => .read wanted payloads }
    | _ => none
  | .averages =>
    match d.reader with
    | .read wanted payloads => some { d with reader := d.finish py wanted payloads }
    | _ => none

/-- A new database, and no call. -/
def Desk.opened (labels : String → Label) : Desk := ⟨Consent.opened, labels, fun _ => none, .idle⟩

end Read

end SparkDeck.Consent
