import Mathlib.Data.Nat.Notation
import Mathlib.Logic.Function.Basic
import SparkDeck.Lib.Transition

/-!
# Downloads from the Hub into one repository

Model of the three ways an agent downloads a model from the Hub into its cache:
`_download_model_process` with its supervised attempts, `download_model_files_checked`, and
`download_model` (`sparkdeck/virtual_nas.py:1481-1506`, `:1613-1807`, `:1810-2020`, `:2053-2105`).
All calls are for one model, so there are two locks: the entry of `_process_download_locks` and the
entry of `_download_locks`.

A call names a `revision`, which is where it looks for files and where it removes the marker; the
Hub's client writes under `commit`, the Hub's own name of that revision. The two differ for a branch
and for a commit in capital letters. `siblings` is what the Hub lists for a revision.

* A `Stage` is what a call has done; everything between `reserved` and `recording` happens inside
  its reservation. The environment decides which files land and when, whether an attempt stalls,
  and when a call fails or is cancelled. A call that fails has seen its writer exit.
* A snapshot is its files, as `_safe_cached_snapshot_file` finds them, and whether it has the
  selective marker.
-/

namespace SparkDeck.Hub

inductive Kind (F : Type*) where
  /-- `_download_model_process`; its writer is a process. -/
  | process
  /-- `download_model_files_checked`, with `selected`. -/
  | selective (selected : List F)
  /-- `download_model` -/
  | threaded

/-- The tables of locks. -/
inductive Lock where
  /-- `_process_download_locks` -/
  | process
  /-- `_download_locks` -/
  | download
  deriving DecidableEq

variable {R F : Type*}

/-- The lock a call takes its reservation with. -/
def Kind.lock : Kind F → Lock
  | .process => .process
  | .selective _ | .threaded => .download

inductive Stage (F : Type*) where
  /-- Before its reservation. -/
  | waiting
  /-- It has its lock. -/
  | reserved
  /-- `repository_complete` and `missing` of a selective download. -/
  | inspected (complete : Bool) (missing : List F)
  /-- The Hub's client runs; `left` is what a selective download has still to fetch. -/
  | writing (left : List F)
  /-- Between two attempts of a supervised download. -/
  | stalled
  /-- The Hub's client has returned. -/
  | written
  /-- The marker is dealt with; the ref and the answer are left. -/
  | recording
  | ended
  deriving DecidableEq

/-- Inside the reservation. -/
def Stage.active : Stage F → Bool
  | .waiting | .ended => false
  | _ => true

/-- The call has written, and has not dealt with the marker since. -/
def Stage.owes : Stage F → Bool
  | .writing _ | .stalled | .written => true
  | _ => false

structure Call (R F : Type*) where
  kind : Kind F
  revision : R
  commit : R
  stage : Stage F

/-- The snapshots a call writes into: a selective download puts the marker where it was asked to. -/
def Call.touches (call : Call R F) : List R :=
  match call.kind with
  | .selective _ => [call.revision, call.commit]
  | .process | .threaded => [call.commit]

/-- A repository in the cache. -/
structure Cache (R F : Type*) where
  /-- `_safe_cached_snapshot_file` finds the file. -/
  present : R → F → Bool
  /-- The snapshot has `_SELECTIVE_SNAPSHOT_MARKER`. -/
  marked : R → Bool

structure Node (R F : Type*) where
  cache : Cache R F
  calls : List (Call R F)

/-- A node with this cache and no call. -/
def Node.start (cache : Cache R F) : Node R F := ⟨cache, []⟩

def Node.goto (n : Node R F) (c : ℕ) (call : Call R F) (st : Stage F) : Node R F :=
  { n with calls := n.calls.set c { call with stage := st } }

/-- Some call holds the lock. -/
def Node.locked (n : Node R F) (l : Lock) : Bool :=
  n.calls.any fun call => call.stage.active && call.kind.lock = l

namespace Cache

variable [DecidableEq R] (a : Cache R F)

def setMarked (r : R) (b : Bool) : Cache R F := { a with marked := Function.update a.marked r b }

def add [DecidableEq F] (r : R) (f : F) : Cache R F :=
  { a with present := Function.update a.present r (Function.update (a.present r) f true) }

end Cache

/-- What a call does next. -/
inductive Turn (F : Type*) where
  /-- It returns or raises before its reservation. -/
  | leave
  | reserve
  /-- A selective download looks at the snapshot. -/
  | inspect
  /-- It writes the marker, or removes it from a snapshot that has every file. -/
  | mark
  | launch
  /-- A file lands in the cache. -/
  | land (f : F)
  /-- The Hub's client returns. -/
  | done
  /-- `DownloadStalled`: the writer was stopped and has exited. -/
  | stall
  /-- What follows the Hub's client, up to the removal of the marker. -/
  | settle
  /-- It returns or raises after that. -/
  | finish
  /-- It raises inside its reservation, or is cancelled there. -/
  | fail

inductive Act (R F : Type*) where
  | call (kind : Kind F) (revision commit : R)
  | turn (c : ℕ) (t : Turn F)

section Step

variable [DecidableEq R] [DecidableEq F] (siblings : R → List F)

/-- Every file the Hub lists is there. -/
def Cache.whole (a : Cache R F) (r : R) : Bool := (siblings r).all (a.present r)

/-- The marker is left on a snapshot that has every file. -/
def Cache.leftover (a : Cache R F) (r : R) : Bool := a.marked r && a.whole siblings r

/-- `repository_complete` -/
def Cache.complete (a : Cache R F) (r : R) : Bool := !(siblings r).isEmpty && a.whole siblings r

/-- `inspect` of a selective download: the Hub lists each selected file. -/
def Kind.accepted (r : R) : Kind F → Bool
  | .selective selected => !selected.isEmpty && selected.all (· ∈ siblings r)
  | .process | .threaded => true

def Node.turn (n : Node R F) (c : ℕ) (call : Call R F) (t : Turn F) : Option (Node R F) :=
  let goto (a : Cache R F) (st : Stage F) := some ({ n with cache := a }.goto c call st)
  match t, call.stage, call.kind with
  | .leave, .waiting, _ => goto n.cache .ended
  | .reserve, .waiting, kind => if n.locked kind.lock then none else goto n.cache .reserved
  | .inspect, .reserved, .selective selected =>
    goto n.cache (.inspected (n.cache.complete siblings call.revision)
      (selected.filter fun f => !n.cache.present call.revision f))
  | .mark, .inspected complete missing, .selective _ =>
    goto (n.cache.setMarked call.revision !complete) (.writing missing)
  | .launch, .reserved, .process | .launch, .stalled, .process | .launch, .reserved, .threaded =>
    goto n.cache (.writing [])
  | .land f, .writing (g :: left), .selective _ =>
    if f = g then goto (n.cache.add call.commit f) (.writing left) else none
  | .land f, .writing left, .process | .land f, .writing left, .threaded =>
    if f ∈ siblings call.commit then goto (n.cache.add call.commit f) (.writing left) else none
  | .done, .writing [], .selective _ => goto n.cache .written
  | .done, .writing _, .process | .done, .writing _, .threaded =>
    if n.cache.whole siblings call.commit then goto n.cache .written else none
  | .stall, .writing _, .process => goto n.cache .stalled
  | .settle, .written, .selective selected =>
    -- `download finished without every selected repository file`
    if !selected.all (n.cache.present call.revision) then goto n.cache .ended
    else if n.cache.complete siblings call.revision then
      goto (n.cache.setMarked call.revision false) .recording
    else goto n.cache .recording
  | .settle, .written, .process | .settle, .written, .threaded =>
    goto (n.cache.setMarked call.revision false) .recording
  | .finish, .recording, _ => goto n.cache .ended
  | .fail, st, _ => if st.active then goto n.cache .ended else none
  | _, _, _ => none

def Node.step (n : Node R F) : Act R F → Option (Node R F)
  | .call kind revision commit =>
    if kind.accepted siblings revision then
      some { n with calls := n.calls ++ [⟨kind, revision, commit, .waiting⟩] }
    else none
  | .turn c t => n.calls[c]?.bind fun call => n.turn siblings c call t

end Step

end SparkDeck.Hub
