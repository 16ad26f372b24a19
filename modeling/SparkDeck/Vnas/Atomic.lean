import SparkDeck.Lib.Transition
import SparkDeck.Vnas.Requests

/-!
# The queue on a disk that can fail

Model of the calls of `sparkdeck/virtual_nas.py` that change the queue: `_queue_transfer`
(`:3788-3902`), `_queue_download_and_transfer` (`:3940-4148`) and `cancel_transfer` (`:4150-4186`), with
their `_save` (`:999`). Each changes the jobs after its last await, so a call is one step, and what it
has read of the nodes before is its `Seen`. Cancel events and the fields of a job's progress are left out.

* `call_atomic`: where every write succeeds and no request names one of its download nodes, without a
  copy, as the source, a call that raises changes nothing, memory and file are the same, the jobs of a
  request are queued together, and a transfer waits for its source's download or has a source with a copy.
* `call_torn`: a write that fails leaves the jobs of the refused request in memory; and a download node
  that is named as the source is not waited for.
* `jobs_kept`: no job is lost, whichever writes fail.
-/

namespace SparkDeck.Vnas.Queue

open Function

set_option linter.unusedSectionVars false

variable {I N M F : Type*}

/-- `source_node_id`, where it is given. -/
def Request.named : Request N M F → Option N
  | .transfer _ s .. => some s
  | .download _ _ _ _ _ _ s .. => s

namespace Atomic

/-- The jobs, of memory or of the file. -/
structure Table (I N M F : Type*) where
  jobs : List (Job I N M F)
  status : I → Status
  cancelable : I → Bool
  /-- `phase` is "canceling". -/
  canceling : I → Bool

/-- What a call reads of the setting, the nodes and the jobs' states. -/
structure Seen (I N : Type*) where
  enabled : Bool
  online : N → Bool
  /-- The node reports the requested revision of the model. -/
  holds : N → Bool
  /-- That copy is whole, can be transferred and has a size. -/
  usable : N → Bool
  /-- Free space is reported and enough, and a target has no copy of the model, a download node the
  partial one that is required. -/
  room : N → Bool
  /-- The states of the jobs when those for the node are looked at. -/
  status : N → I → Status

/-- A request that was accepted, with the ids of its jobs. -/
structure Batch (I N M F : Type*) where
  request : Request N M F
  seen : Seen I N
  ids : List I

structure Desk (I N M F : Type*) where
  memory : Table I N M F
  file : Table I N M F
  accepted : List (Batch I N M F)

inductive Call (I N M F : Type*) where
  /-- `saved`: the file can be written. -/
  | queue (b : Batch I N M F) (saved : Bool)
  | cancel (i : I) (saved : Bool)
  /-- The dispatcher or a runner changes a job. -/
  | work (i : I) (s : Status) (cancelable canceling saved : Bool)

/-- The change of the jobs, and `_save`; whether it raises. -/
def Desk.save (d : Desk I N M F) (t : Table I N M F) (bs : List (Batch I N M F)) :
    Bool → Desk I N M F × Bool
  | true => (⟨t, t, d.accepted ++ bs⟩, false)
  | false => ({ d with memory := t }, true)

variable [DecidableEq I] [DecidableEq N]

/-- `cancel_transfer`; `none` where there is nothing to write. -/
def Table.cancelled (t : Table I N M F) (i : I) : Except CancelError (Option (Table I N M F)) :=
  match t.jobs.find? fun j => j.id = i with
  | none => .error .lookup
  | some j =>
    if (t.status i).final then .ok none
    else if j.kind = .download ∧ t.status i = .running ∧ t.cancelable i = false then
      .error .runtime
    else if t.status i = .running then
      .ok (some { t with canceling := update t.canceling i true })
    else
      .ok (some { t with
        status := cascade t.jobs t.jobs.length i (update t.status i .canceled) })

variable [DecidableEq M] [DecidableEq F]

def Batch.jobs (b : Batch I N M F) : List (Job I N M F) := b.request.jobs b.ids

/-- The checks of a request; each raises before the jobs are changed. -/
def Table.admits (t : Table I N M F) (r : Request N M F) (s : Seen I N) : Bool :=
  s.enabled && r.valid &&
    (r.nodes.all fun n => s.online n && s.room n && !t.jobs.any fun j =>
      j.model = r.model ∧ j.target = n ∧ (s.status n j.id).active) &&
    (r.targets.isEmpty || r.source ∈ r.downloadNodes ||
      s.online r.source && s.holds r.source && s.usable r.source)

/-- The jobs of the request are queued. -/
def Table.queued (t : Table I N M F) (b : Batch I N M F) : Table I N M F where
  jobs := t.jobs ++ b.jobs
  status i := if i ∈ b.ids then .queued else t.status i
  cancelable i := if i ∈ b.ids then false else t.cancelable i
  canceling i := if i ∈ b.ids then false else t.canceling i

def Desk.call (d : Desk I N M F) : Call I N M F → Option (Desk I N M F × Bool)
  | .queue b saved =>
    if b.ids.length = b.request.nodes.length then
      some (if d.memory.admits b.request b.seen then d.save (d.memory.queued b) [b] saved
        else (d, true))
    else none
  | .cancel i saved =>
    match d.memory.cancelled i with
    | .error _ => some (d, true)
    | .ok none => some (d, false)
    | .ok (some t) => some (d.save t [] saved)
  | .work i s c x saved =>
    let t := d.memory
    some (d.save ⟨t.jobs, update t.status i s, update t.cancelable i c,
      update t.canceling i x⟩ [] saved)

/-- No write fails, and a download node that is named as the source of a transfer has a copy. -/
def Call.Plain : Call I N M F → Prop
  | .queue ⟨r, seen, _⟩ saved => saved ∧
    (r.targets = [] ∨ ∀ n, r.named = some n → n ∈ r.downloadNodes → seen.holds n)
  | .cancel _ saved | .work _ _ _ _ saved => saved

/-- The runs of a controller that has loaded `t`. -/
inductive Reach (t : Table I N M F) : Desk I N M F → Prop where
  | load : Reach t ⟨t, t, []⟩
  | step {d d' : Desk I N M F} {c : Call I N M F} {raised : Bool} :
    Reach t d → c.Plain → d.call c = some (d', raised) → Reach t d'

/-- The transfer waits for its source's download, or its source has reported a copy. -/
def Batch.Sourced (b : Batch I N M F) (j : Job I N M F) : Prop :=
  (∃ p ∈ b.jobs, j.dependsOn = some p.id ∧ p.kind = .download ∧ j.source = some p.target) ∨
    ∃ n, j.source = some n ∧ b.seen.holds n

/-- All jobs of the request, and each transfer with its source. -/
def Batch.Sound (b : Batch I N M F) : Prop :=
  b.jobs.map Job.target = b.request.nodes ∧ ∀ j ∈ b.jobs, j.kind = .transfer → b.Sourced j

variable {t : Table I N M F} {b : Batch I N M F} {saved : Bool}

theorem Batch.sourced (hlen : b.ids.length = b.request.nodes.length)
    (ha : t.admits b.request b.seen) (hp : (Call.queue b saved).Plain) {j : Job I N M F}
    (hj : j ∈ b.jobs) (hk : j.kind = .transfer) : b.Sourced j := by
  obtain ⟨r, seen, ids⟩ := b
  simp only [Table.admits, Bool.and_eq_true, Bool.or_eq_true, decide_eq_true_eq,
    List.isEmpty_iff] at ha
  obtain ⟨⟨⟨-, hv⟩, -⟩, hsrc⟩ := ha
  obtain ⟨k, hget⟩ := List.mem_iff_getElem?.mp hj
  rw [Batch.jobs, Request.jobs_getElem?] at hget
  split at hget
  case h_2 => cases hget
  case h_1 i n hi hn =>
    cases hget
    cases r with
    | transfer m s ts rev req wf =>
      refine .inr ⟨s, rfl, ?_⟩
      rcases hsrc with (h | h) | ⟨⟨-, h⟩, -⟩
      · simp [Request.valid, h] at hv
      · cases h
      · exact h
    | download m rev req a more ts s files wf =>
      have hnot : n ∉ Request.downloadNodes (.download m rev req a more ts s files wf) := by
        intro hin
        simp [Request.job, hin] at hk
      have hts := List.mem_append.mp (List.mem_of_getElem? hn)
      have hne := List.ne_nil_of_mem (hts.resolve_left hnot)
      cases s with
      | some s =>
        refine .inr ⟨s, by simp [Request.job, hnot], ?_⟩
        rcases hsrc with (h | h) | ⟨⟨-, h⟩, -⟩
        · exact absurd h hne
        · exact hp.2.resolve_left hne s rfl h
        · exact h
      | none =>
        -- the first job is the download of the primary node
        have hin : a ∈ Request.downloadNodes (.download m rev req a more ts none files wf) := by
          simp [Request.downloadNodes, List.eraseDups_cons]
        obtain ⟨i₀, hhead⟩ : ∃ i₀, ids.head? = some i₀ := by
          cases ids with
          | nil => cases hi
          | cons i₀ => exact ⟨i₀, rfl⟩
        refine .inl ⟨Request.job (.download m rev req a more ts none files wf) ids.head? i₀ a,
          List.mem_iff_getElem?.mpr ⟨0, ?_⟩, ?_, ?_, ?_⟩
        · rw [Batch.jobs, Request.jobs_getElem?, ← List.head?_eq_getElem?, hhead]
          simp [Request.nodes, Request.downloadNodes, List.eraseDups_cons]
        · simp [Request.job, hnot, hin, hhead]
        · simp [Request.job, hin]
        · simp [Request.job, hnot, hin]

/-- What every call leaves. -/
structure Inv (t : Table I N M F) (d : Desk I N M F) : Prop where
  file : d.memory = d.file
  jobs : d.memory.jobs = t.jobs ++ d.accepted.flatMap Batch.jobs
  sound : ∀ b ∈ d.accepted, b.Sound

variable {d d' : Desk I N M F} {c : Call I N M F} {raised : Bool}

/-- A change of the jobs' states. -/
theorem Inv.save (h : Inv t d) {u : Table I N M F} (hu : u.jobs = d.memory.jobs) :
    Inv t (d.save u [] true).1 :=
  ⟨rfl, by simpa [Desk.save, hu] using h.jobs, by simpa [Desk.save] using h.sound⟩

theorem Table.cancelled_jobs {u : Table I N M F} {i : I} (h : t.cancelled i = .ok (some u)) :
    u.jobs = t.jobs := by
  unfold Table.cancelled at h
  split at h
  case h_1 => cases h
  case h_2 =>
    split_ifs at h <;> cases h <;> rfl

theorem Inv.call (h : Inv t d) (hc : c.Plain) (hs : d.call c = some (d', raised)) :
    Inv t d' ∧ (raised → d' = d) := by
  cases c with
  | queue b saved =>
    obtain ⟨hlen, hs⟩ := Option.ite_none_right_eq_some.mp hs
    split at hs
    case isFalse =>
      cases hs
      exact ⟨h, fun _ => rfl⟩
    case isTrue ha =>
      obtain rfl : saved = true := hc.1
      cases hs
      refine ⟨⟨rfl, ?_, ?_⟩, nofun⟩
      · simp [Table.queued, h.jobs, List.append_assoc]
      · intro x hx
        rcases List.mem_append.mp hx with hx | hx
        · exact h.sound x hx
        · cases List.mem_singleton.mp hx
          exact ⟨Request.jobs_targets hlen, fun j hj hk => Batch.sourced hlen ha hc hj hk⟩
  | cancel i saved =>
    obtain rfl : saved = true := hc
    cases hu : d.memory.cancelled i with
    | error =>
      simp only [Desk.call, hu] at hs
      cases hs
      exact ⟨h, fun _ => rfl⟩
    | ok u =>
      simp only [Desk.call, hu] at hs
      cases u with
      | none =>
        cases hs
        exact ⟨h, nofun⟩
      | some u =>
        cases hs
        exact ⟨h.save (Table.cancelled_jobs hu), nofun⟩
  | work i s c x saved =>
    obtain rfl : saved = true := hc
    cases hs
    exact ⟨h.save rfl, nofun⟩

theorem Reach.inv (h : Reach t d) : Inv t d := by
  induction h with
  | load => exact ⟨rfl, by simp, nofun⟩
  | step _ hc hs ih => exact (ih.call hc hs).1

theorem call_atomic (h : Reach t d) (hc : c.Plain) (hs : d.call c = some (d', raised)) :
    (raised = true → d' = d) ∧ d'.memory = d'.file ∧
      d'.memory.jobs = t.jobs ++ d'.accepted.flatMap Batch.jobs ∧
      ∀ b ∈ d'.accepted, b.jobs.map Job.target = b.request.nodes ∧
        ∀ j ∈ b.jobs, j.kind = .transfer → b.Sourced j :=
  have ⟨hi, hr⟩ := h.inv.call hc hs
  ⟨hr, hi.file, hi.jobs, hi.sound⟩

/-- A download to node 0 with a transfer from `source` to node 1. -/
def copying (source : Option ℕ) : Batch ℕ ℕ ℕ ℕ where
  request := .download 5 "0123456789012345678901234567890123456789" none 0 [] [1] source none false
  seen := ⟨true, fun _ => true, fun _ => false, fun _ => false, fun _ => true, fun _ _ => .failed⟩
  ids := [7, 8]

/-- No jobs. -/
def unloaded : Table ℕ ℕ ℕ ℕ := ⟨[], fun _ => .failed, fun _ => false, fun _ => false⟩

theorem call_queue (hlen : b.ids.length = b.request.nodes.length)
    (ha : d.memory.admits b.request b.seen) :
    d.call (.queue b saved) = some (d.save (d.memory.queued b) [b] saved) := by
  rw [Desk.call, if_pos hlen, if_pos ha]

theorem call_atomic_copied : ∃ d', (Desk.mk unloaded unloaded []).call (.queue (copying none) true) =
    some (d', false) ∧ d'.memory = d'.file ∧ ∀ b ∈ d'.accepted, ∀ j ∈ b.jobs, j.kind = .transfer →
      b.Sourced j := by
  have hs : (Desk.mk unloaded unloaded []).call (.queue (copying none) true) = some (_, false) :=
    call_queue (by decide) (by decide)
  have hp : (Call.queue (copying none) true).Plain := ⟨rfl, .inr nofun⟩
  obtain ⟨-, hfile, -, hall⟩ := call_atomic .load hp hs
  exact ⟨_, hs, hfile, fun b hb => (hall b hb).2⟩

theorem call_torn :
    (∃ d', (Desk.mk unloaded unloaded []).call (.queue (copying none) false) = some (d', true) ∧
      d'.memory.jobs ≠ [] ∧ d'.file.jobs = []) ∧
    ∃ d', (Desk.mk unloaded unloaded []).call (.queue (copying (some 0)) true) = some (d', false) ∧
      ∃ b ∈ d'.accepted, ∃ j ∈ b.jobs, j.kind = .transfer ∧ ¬b.Sourced j := by
  refine ⟨⟨_, call_queue (by decide) (by decide), by decide, rfl⟩, _,
    call_queue (by decide) (by decide), copying (some 0), List.mem_singleton_self _, _,
    List.mem_cons_of_mem _ List.mem_cons_self, rfl, ?_⟩
  rintro (⟨p, -, hp, -⟩ | ⟨n, -, hn⟩)
  · cases hp
  · cases hn

/-! ## Writes that fail -/

/-- The file has the jobs of memory up to some place, with those that it began with and those of
the accepted requests, in their order. -/
def Kept (t : Table I N M F) (d : Desk I N M F) : Prop :=
  d.file.jobs <+: d.memory.jobs ∧
    (t.jobs ++ d.accepted.flatMap Batch.jobs).Sublist d.file.jobs

theorem Kept.save (h : Kept t d) {u : Table I N M F} {bs : List (Batch I N M F)}
    (hu : u.jobs = d.memory.jobs ++ bs.flatMap Batch.jobs) : Kept t (d.save u bs saved).1 := by
  obtain ⟨hpre, hsub⟩ := h
  cases saved with
  | false => exact ⟨hpre.trans ⟨_, hu.symm⟩, hsub⟩
  | true =>
    refine ⟨List.prefix_rfl, ?_⟩
    simp only [Desk.save, List.flatMap_append, ← List.append_assoc, hu]
    exact (hsub.trans hpre.sublist).append (.refl _)

theorem Kept.call (h : Kept t d) (hs : (d.call c).map Prod.fst = some d') : Kept t d' := by
  obtain ⟨x, hx, rfl⟩ := Option.map_eq_some_iff.mp hs
  cases c with
  | queue b saved =>
    cases Option.some.inj (Option.ite_none_right_eq_some.mp hx).2
    split
    · exact h.save (by simp [Table.queued])
    · exact h
  | cancel i saved =>
    simp only [Desk.call] at hx
    split at hx <;> cases Option.some.inj hx
    case h_3 u hu => exact h.save (by simp [Table.cancelled_jobs hu])
    all_goals exact h
  | work i s c x saved =>
    cases Option.some.inj hx
    exact h.save (by simp)

/-- **No job is lost**, whichever writes fail. -/
theorem jobs_kept (h : Transition.Reach (fun d c => (d.call c).map Prod.fst) Transition.Free
    ⟨t, t, []⟩ d) : Kept t d :=
  h.invariant (P := Kept t) (by simp [Kept]) fun _ _ _ ha _ hs => ha.call hs

theorem jobs_kept_refused : ∃ d : Desk ℕ ℕ ℕ ℕ, d.memory.jobs ≠ [] ∧ Kept unloaded d := by
  have hs : (Desk.mk unloaded unloaded []).call (.queue (copying none) false) = some (_, true) :=
    call_queue (by decide) (by decide)
  refine ⟨_, ?_, jobs_kept (.tail .refl trivial (congrArg (Option.map Prod.fst) hs))⟩
  decide

end Atomic

end SparkDeck.Vnas.Queue
