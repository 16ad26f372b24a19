import SparkDeck.Vnas.Verdict

/-!
# Restarts

The queue with its file: what each step writes (`_save`), and what a controller makes of the file when
it starts again (`_load_jobs`, `sparkdeck/virtual_nas.py:904-997`). A restart may come at any point; a
graceful one comes after the steps of `stop`. The tombstones of canceled downloads are kept by the
node that downloads, in a file of its own.

`asked` and `erred` are history: the jobs that a user has canceled, and those whose request to the
writing node has failed.

* `restart_survives`: what a restart keeps, and that a job that neither a user nor an error has stopped
  does not end as canceled.
* `restart_forgets`: the two ways in which it does not.
-/

open Transition Function

namespace SparkDeck.Vnas.Queue

variable {I N M F : Type*}

/-! ## The file -/

structure File (I N M F : Type*) where
  jobs : List (Job I N M F)
  status : I → Status

/-- A record that is loaded; one with an empty selection is not. -/
def loadJob [DecidableEq F] (j : Job I N M F) : Option (Job I N M F) :=
  match j.selectedFiles.map List.eraseDups with
  | some [] => none
  | files => some { j with
      selectedFiles := files
      requestedRevision := j.requestedRevision.or j.revision }

/-- An active job of a workflow whose revision is not pinned fails, and a running job is queued. -/
def loadStatus (j : Job I N M F) (s : Status) : Status :=
  let s := if j.workflow ∧ j.revision.any (fun v => !isCommitSha v) ∧ s.active then .failed else s
  if s = .running then .queued else s

namespace File

variable [DecidableEq I] [DecidableEq F] (f : File I N M F)

/-- `_load_jobs` -/
def load : File I N M F where
  jobs := f.jobs.filterMap loadJob
  status i :=
    match f.jobs.find? fun j => j.id = i with
    | some j => loadStatus j (f.status i)
    | none => .failed

/-- `recovered` -/
def recovered : Bool := f.jobs.any fun j => loadStatus j (f.status j.id) ≠ f.status j.id

end File

structure Controller (I N M F : Type*) where
  queue : State I N M F
  file : File I N M F
  asked : List I
  erred : List I

inductive Event (I N M F : Type*) where
  | live (e : Label I N M F)
  /-- A runner saves its progress. -/
  | progress
  /-- The controller is gone, and starts again. -/
  | restart

namespace Controller

variable [DecidableEq I] [DecidableEq N] [DecidableEq M] [DecidableEq F]

/-- The step calls `_save`. -/
def saves (q : State I N M F) : Label I N M F → Bool
  | .commit _ => true
  | .cancel i =>
    match q.cancelTransfer i with
    | .ok _ => (q.status i).active
    | .error _ => false
  | .pass => q.jobs.any fun j => q.pass.status j.id ≠ q.status j.id
  | .run k a =>
    match q.runners[k]? with
    | none => false
    | some r =>
      match a with
      | .begin | .unconfirmed | .finish => true
      | .complete | .fail | .cancel | .interrupt =>
        -- `_run_transfer` has awaits before the `_save` of its `finally`
        r.job.kind = .download
      | _ => false
  | _ => false

/-- A user cancels the job. -/
def asks (q : State I N M F) : Label I N M F → List I
  | .cancel i =>
    match q.cancelTransfer i with
    | .ok _ => if (q.status i).active then [i] else []
    | .error _ => []
  | _ => []

/-- The request to the writing node fails. -/
def errs (q : State I N M F) : Label I N M F → List I
  | .run k .lose => (q.runners[k]?).toList.map fun r => r.job.id
  | _ => []

def init (enabled : Bool) : Controller I N M F :=
  ⟨.init enabled [] (fun _ => .failed) [], ⟨[], fun _ => .failed⟩, [], []⟩

def step (c : Controller I N M F) : Event I N M F → Option (Controller I N M F)
  | .live e =>
    match c.queue.step e with
    | none => none
    | some q => some
      { queue := q
        file := if saves c.queue e then ⟨q.jobs, q.status⟩ else c.file
        asked := asks c.queue e ++ c.asked
        erred := errs c.queue e ++ c.erred }
  | .progress => some { c with file := ⟨c.queue.jobs, c.queue.status⟩ }
  | .restart => some
    { c with
      queue := .init c.queue.enabled c.file.load.jobs c.file.load.status c.queue.tombstones
      file := if c.file.recovered then c.file.load else c.file }

/-- What a restart keeps. -/
structure Survives (c c' : Controller I N M F) : Prop where
  /-- The jobs, with all that was queued with them, in their order, -/
  jobs : c'.queue.jobs = c.queue.jobs
  /-- every verdict, -/
  final : ∀ j ∈ c.queue.jobs, (c.queue.status j.id).final →
    c'.queue.status j.id = c.queue.status j.id
  /-- and the others are queued. -/
  queued : ∀ j ∈ c.queue.jobs, (c.queue.status j.id).active →
    c'.queue.status j.id = .queued

/-- No runner ends a job as canceled that no user has canceled and nothing has failed for. -/
def Spared (c : Controller I N M F) : Prop :=
  ∀ (k : ℕ) r, c.queue.runners[k]? = some r → r.job.id ∉ c.asked → r.job.id ∉ c.erred →
    c.queue.act k r .cancel = none

/-- No runner is between its verdict and its save. -/
def Saved (c : Controller I N M F) : Prop :=
  ∀ r ∈ c.queue.runners, r.stage = .closing → (c.queue.status r.job.id).final →
    c.file.status r.job.id = c.queue.status r.job.id

instance (c : Controller I N M F) : Decidable c.Saved := by
  unfold Saved
  infer_instance

/-- The controller goes away, or cancels its runners, when every verdict is saved; it cancels none
that has a cancelable download at work; and it clears its tables when no runner is left. -/
def Gentle (c : Controller I N M F) : Event I N M F → Prop
  | .restart => c.Saved
  | .live .stopRunners =>
    c.Saved ∧ ∀ e ∈ c.queue.active, ∀ r ∈ c.queue.runners[e.runner]?, r.dispatched = false
  | .live (.clear _) => ∀ r ∈ c.queue.runners, r.stage = .done
  | _ => True

instance (c : Controller I N M F) (e : Event I N M F) : Decidable (c.Gentle e) := by
  unfold Gentle
  split <;> infer_instance

end Controller

/-! ## Records that are loaded as they are -/

structure Storable (j : Job I N M F) : Prop where
  files : ∀ l, j.selectedFiles = some l → l ≠ [] ∧ l.Nodup
  requested : j.requestedRevision = none → j.revision = none
  pinned : j.workflow → j.revision.all isCommitSha

theorem eraseDups_of_nodup {α : Type*} [DecidableEq α] {l : List α} (h : l.Nodup) :
    l.eraseDups = l := by
  induction l with
  | nil => rfl
  | cons a l ih =>
    obtain ⟨hnot, hl⟩ := List.nodup_cons.mp h
    have hfilter : l.filter (fun b => !b == a) = l := by
      refine List.filter_eq_self.mpr fun b hb => ?_
      have hne : b ≠ a := fun he => hnot (he ▸ hb)
      simpa using hne
    rw [List.eraseDups_cons, hfilter, ih hl]

variable {j : Job I N M F}

theorem Storable.load [DecidableEq F] (h : Storable j) : loadJob j = some j := by
  have hreq : j.requestedRevision.or j.revision = j.requestedRevision := by
    cases hr : j.requestedRevision with
    | none => simp [h.requested hr]
    | some v => rfl
  have hfiles : j.selectedFiles.map List.eraseDups = j.selectedFiles := by
    cases hf : j.selectedFiles with
    | none => rfl
    | some l => rw [Option.map_some, eraseDups_of_nodup (h.files l hf).2]
  unfold loadJob
  rw [hfiles, hreq]
  split
  case h_1 hf => exact absurd rfl (h.files [] hf).1
  case h_2 => rfl

/-- A job that was running is as good as queued. -/
def Status.settled : Status → Status
  | .running => .queued
  | s => s

theorem settled_final {s : Status} (h : s.final) : s.settled = s := by
  cases s <;> first | rfl | cases h

theorem settled_active {s : Status} (h : s.active) : s.settled = .queued := by
  cases s <;> first | rfl | cases h

theorem Storable.loadStatus (h : Storable j) (s : Status) : loadStatus j s = s.settled := by
  have hnot : ¬(j.workflow ∧ j.revision.any (fun v => !isCommitSha v) ∧
      s.active) := by
    rintro ⟨hw, hany, -⟩
    have hall := h.pinned hw
    cases hr : j.revision <;> simp_all
  unfold Queue.loadStatus
  rw [if_neg hnot]
  cases s <;> rfl

theorem Request.job_storable {r : Request N M F} [DecidableEq N] [DecidableEq F]
    (hvalid : r.valid) (hpinned : r.pinned) (primary : Option I) (i : I) (t : N) :
    Storable (r.job primary i t) := by
  cases r with
  | transfer m src ts rev req wf =>
    refine ⟨fun l hl => (by cases hl), fun hn => Option.map_eq_none_iff.mp hn, fun hw => ?_⟩
    have hw' : wf := hw
    have hall : rev.all isCommitSha := by simpa [pinned, hw'] using hpinned
    exact hall
  | download m rev req n more ts src files wf =>
    simp only [valid, Bool.and_eq_true] at hvalid
    obtain ⟨⟨⟨hsha, hfiles⟩, -⟩, -⟩ := hvalid
    unfold job
    dsimp only
    split
    case isTrue =>
      refine ⟨fun l hl => ?_, fun hn => (by cases hn), fun _ => by simpa using hsha⟩
      obtain ⟨_, hl⟩ := Option.ite_none_right_eq_some.mp hl
      obtain ⟨fs, rfl, rfl⟩ := Option.map_eq_some_iff.mp hl
      refine ⟨?_, Assoc.nodup_eraseDups _⟩
      cases fs with
      | nil => simp at hfiles
      | cons f fs => simp [List.eraseDups_cons]
    case isFalse =>
      exact ⟨fun l hl => (by cases hl), fun hn => (by cases hn), fun _ => by simpa using hsha⟩

theorem Request.jobs_storable {r : Request N M F} [DecidableEq N] [DecidableEq F]
    (hvalid : r.valid) (hpinned : r.pinned) {ids : List I} (hj : j ∈ r.jobs ids) :
    Storable j := by
  obtain ⟨k, hk⟩ := List.mem_iff_getElem?.mp hj
  rw [jobs_getElem?] at hk
  split at hk
  case h_1 =>
    cases hk
    exact job_storable hvalid hpinned ..
  case h_2 => cases hk

/-! ## What an act does to its runner -/

namespace State

variable [DecidableEq I] {q q' : State I N M F}

structure Acts (q q' : State I N M F) (k : ℕ) (r : Runner I N M F) (a : Act) : Prop where
  runner : ∃ r', q'.runners = q.runners.set k r' ∧ r'.job = r.job ∧
    (r'.event → r.event ∨ a = .lose) ∧
    (r'.dispatched → r'.cancelling → r.dispatched ∧ r.cancelling)
  events : ∀ i p, q'.events i = some p → q.events i = some p ∨ i = r.job.id ∧ p = k
  tombstones : ∀ i ∈ q'.tombstones, i ∈ q.tombstones ∨
    i = r.job.id ∧ r.dispatched ∧ (r.event ∨ r.cancelling)
  queueing : q'.queueing = q.queueing

variable {r : Runner I N M F} {k : ℕ} {a : Act}

theorem acts_leave {x : State I N M F} (hruns : x.runners = q.runners)
    (hevents : x.events = q.events) (htombs : x.tombstones = q.tombstones)
    (hqueueing : x.queueing = q.queueing) : Acts q (x.leave k r) k r a := by
  have hpop : ∀ j i p, (update x.events j none) i = some p → q.events i = some p := by
    intro j i p hp
    rw [update_apply] at hp
    obtain ⟨_, hp⟩ := Option.ite_none_left_eq_some.mp hp
    rw [← hevents, hp]
  unfold State.leave
  split
  case h_1 =>
    refine ⟨⟨{ r with stage := .done, cancelling := false }, ?_, rfl, .inl,
        fun _ hc => absurd hc Bool.false_ne_true⟩, fun i p hp => .inl (hpop _ i p hp), fun i hi => .inl (htombs ▸ hi), hqueueing⟩
    rw [← hruns]
    rfl
  case h_2 =>
    refine ⟨⟨{ r with stage := .closing, cancelling := false }, ?_, rfl, .inl,
      fun _ hc => absurd hc Bool.false_ne_true⟩, fun i p hp => .inl (hevents ▸ hp), fun i hi => .inl (htombs ▸ hi),
      hqueueing⟩
    rw [← hruns]
    rfl

theorem act_acts (hr : q.runners[k]? = some r) (hs : q.act k r a = some q') : Acts q q' k r a := by
  have hset : q.runners.set k r = q.runners := by
    obtain ⟨hk, rfl⟩ := List.getElem?_eq_some_iff.mp hr
    exact List.set_getElem_self hk
  cases a with
  | begin =>
    obtain ⟨hc, hs⟩ := Option.ite_none_right_eq_some.mp hs
    have hev : ∀ i p, (update q.events r.job.id (some k)) i = some p →
        q.events i = some p ∨ i = r.job.id ∧ p = k := by
      intro i p hp
      rw [update_apply] at hp
      split at hp
      case isTrue hi => exact .inr ⟨hi, (Option.some.inj hp).symm⟩
      case isFalse => exact .inl hp
    cases hs
    split
    · exact ⟨⟨{ r with stage := .body }, rfl, rfl, .inl, fun hd hcan => ⟨hd, hcan⟩⟩, hev,
        fun _ => .inl, rfl⟩
    · exact ⟨⟨{ r with stage := .body }, rfl, rfl, .inl, fun hd hcan => ⟨hd, hcan⟩⟩, hev,
        fun _ => .inl, rfl⟩
  | abandon | rollback | drop =>
    obtain ⟨_, rfl⟩ := guard_some hs
    exact ⟨⟨_, rfl, rfl, .inl, fun hd hcan => ⟨hd, hcan⟩⟩, fun _ _ => .inl, fun _ => .inl, rfl⟩
  | capable b =>
    obtain ⟨_, rfl⟩ := guard_some hs
    exact ⟨⟨r, hset.symm, rfl, .inl, fun hd hcan => ⟨hd, hcan⟩⟩, fun _ _ => .inl, fun _ => .inl,
      rfl⟩
  | dispatch =>
    obtain ⟨hc, rfl⟩ := guard_some hs
    refine ⟨⟨_, rfl, rfl, .inl, fun _ hcan => ?_⟩, fun _ _ => .inl, fun _ => .inl, rfl⟩
    have hcan' : r.cancelling := hcan
    simp [hc.2.2.2.1] at hcan'
  | lose =>
    obtain ⟨_, rfl⟩ := guard_some hs
    exact ⟨⟨_, rfl, rfl, fun _ => .inr rfl, fun hd hcan => ⟨hd, hcan⟩⟩, fun _ _ => .inl,
      fun _ => .inl, rfl⟩
  | stopWriter =>
    obtain ⟨hc, rfl⟩ := guard_some hs
    refine ⟨⟨r, hset.symm, rfl, .inl, fun hd hcan => ⟨hd, hcan⟩⟩, fun _ _ => .inl,
      fun i hi => ?_, rfl⟩
    rcases List.mem_cons.mp hi with rfl | hi
    · exact .inr ⟨rfl, hc.2⟩
    · exact .inl hi
  | unconfirmed =>
    obtain ⟨_, rfl⟩ := guard_some hs
    exact ⟨⟨_, rfl, rfl, fun he => absurd he Bool.false_ne_true, fun hd hcan => ⟨hd, hcan⟩⟩,
      fun _ _ => .inl, fun _ => .inl, rfl⟩
  | returned =>
    obtain ⟨_, rfl⟩ := guard_some hs
    exact ⟨⟨_, rfl, rfl, .inl, fun hd => absurd hd Bool.false_ne_true⟩, fun _ _ => .inl,
      fun _ => .inl, rfl⟩
  | complete | fail =>
    obtain ⟨_, rfl⟩ := guard_some hs
    exact acts_leave rfl rfl rfl rfl
  | cancel | interrupt =>
    obtain ⟨_, rfl⟩ := guard_some hs
    split
    · exact acts_leave rfl rfl rfl rfl
    · exact acts_leave rfl rfl rfl rfl
  | finish =>
    obtain ⟨_, rfl⟩ := guard_some hs
    refine ⟨⟨_, rfl, rfl, .inl, fun hd hcan => ⟨hd, hcan⟩⟩, fun i p hp => .inl ?_, fun _ => .inl,
      rfl⟩
    change update q.events r.job.id none i = some p at hp
    rw [update_apply] at hp
    obtain ⟨_, hp⟩ := Option.ite_none_left_eq_some.mp hp
    exact hp

/-! ## Who stops a writer -/

/-- Every cancel event, and every tombstone, is of a job that a user has canceled or whose request has
failed; and no runner that is cancelled has a writer at work. -/
structure Traced (q : State I N M F) (asked erred : List I) : Prop where
  events : ∀ i k, q.events i = some k → ∃ r, q.runners[k]? = some r ∧ r.job.id = i
  event : ∀ (k : ℕ) r, q.runners[k]? = some r → r.event →
    r.job.id ∈ asked ∨ r.job.id ∈ erred
  tombstones : ∀ i ∈ q.tombstones, i ∈ asked ∨ i ∈ erred
  calm : ∀ (k : ℕ) r, q.runners[k]? = some r → r.dispatched = true → r.cancelling = false

variable {asked erred : List I}

omit [DecidableEq I] in
theorem Traced.mono (h : q.Traced asked erred) {asked' erred' : List I} (ha : asked ⊆ asked')
    (he : erred ⊆ erred') : q.Traced asked' erred' :=
  ⟨h.events, fun k r hr hev => (h.event k r hr hev).imp (@ha _) (@he _),
    fun i hi => (h.tombstones i hi).imp (@ha _) (@he _), h.calm⟩

omit [DecidableEq I] in
/-- The runners keep their jobs and events, and there may be new ones. -/
theorem Traced.same (h : q.Traced asked erred) (hevents : q'.events = q.events)
    (htombs : q'.tombstones = q.tombstones)
    (hkeep : ∀ (k : ℕ) r, q.runners[k]? = some r → ∃ r', q'.runners[k]? = some r' ∧ r'.job = r.job)
    (hback : ∀ (k : ℕ) r', q'.runners[k]? = some r' → r'.event = false ∧ r'.dispatched = false ∨
      ∃ r, q.runners[k]? = some r ∧ r'.job = r.job ∧ r'.event = r.event ∧
        r'.dispatched = r.dispatched ∧ (r.dispatched → r'.cancelling = r.cancelling)) :
    q'.Traced asked erred := by
  refine ⟨fun i k hi => ?_, fun k r' hr' hev => ?_, htombs ▸ h.tombstones, fun k r' hr' hd => ?_⟩
  · obtain ⟨r, hr, hid⟩ := h.events i k (hevents ▸ hi)
    obtain ⟨r', hr', hjob⟩ := hkeep k r hr
    exact ⟨r', hr', hjob ▸ hid⟩
  · rcases hback k r' hr' with ⟨hnone, -⟩ | ⟨r, hr, hjob, he, -⟩
    · cases hnone.symm.trans hev
    · rw [hjob]
      exact h.event k r hr (he ▸ hev)
  · rcases hback k r' hr' with ⟨-, hnone⟩ | ⟨r, hr, -, -, hd', hcan⟩
    · cases hnone.symm.trans hd
    · rw [hd'] at hd
      rw [hcan hd]
      exact h.calm k r hr hd

theorem Traced.act (h : q.Traced asked erred) (hr : q.runners[k]? = some r)
    (hs : q.act k r a = some q') (hlose : a = .lose → r.job.id ∈ erred) :
    q'.Traced asked erred := by
  have hacts := act_acts hr hs
  obtain ⟨r', hruns, hjob, hevent, hcalm⟩ := hacts.runner
  have hlt : k < q.runners.length := (List.getElem?_eq_some_iff.mp hr).1
  have hself : q'.runners[k]? = some r' := by rw [hruns, List.getElem?_set_self hlt]
  refine ⟨fun i p hi => ?_, fun p x hx hev => ?_, fun i hi => ?_, fun p x hx hd => ?_⟩
  · rcases hacts.events i p hi with hold | ⟨rfl, rfl⟩
    · obtain ⟨x, hx, hid⟩ := h.events i p hold
      by_cases hpk : p = k
      · subst hpk
        obtain rfl : r = x := Option.some.inj (hr.symm.trans hx)
        exact ⟨r', hself, hjob ▸ hid⟩
      · exact ⟨x, by rw [hruns, List.getElem?_set_ne (Ne.symm hpk), hx], hid⟩
    · exact ⟨r', hself, by rw [hjob]⟩
  · rcases set_cases hruns hx with ⟨rfl, rfl⟩ | ⟨-, hx⟩
    · rw [hjob]
      rcases hevent hev with hev | ha
      · exact h.event p r hr hev
      · exact .inr (hlose ha)
    · exact h.event p x hx hev
  · rcases hacts.tombstones i hi with hold | ⟨rfl, hd, hev | hcan⟩
    · exact h.tombstones i hold
    · exact h.event k r hr hev
    · rw [h.calm k r hr hd] at hcan
      cases hcan
  · rcases set_cases hruns hx with ⟨rfl, rfl⟩ | ⟨-, hx⟩
    · refine Bool.eq_false_iff.mpr fun hcan => ?_
      obtain ⟨hd', hcan'⟩ := hcalm hd hcan
      rw [h.calm p r hr hd'] at hcan'
      cases hcan'
    · exact h.calm p x hx hd

omit [DecidableEq I] in
theorem Traced.signal (h : q.Traced asked erred) {i : I} (hi : i ∈ asked) :
    (q.signal i).Traced asked erred := by
  unfold State.signal
  split
  case h_1 => exact h
  case h_2 k hk =>
    split
    case h_1 => exact h
    case h_2 r hr =>
      obtain ⟨r', hr', hid⟩ := h.events i k hk
      obtain rfl : r = r' := Option.some.inj (hr.symm.trans hr')
      have hlt : k < q.runners.length := (List.getElem?_eq_some_iff.mp hr).1
      have hruns : (q.setRunner k { r with event := true }).runners =
          q.runners.set k { r with event := true } := rfl
      refine ⟨fun j p hj => ?_, fun p x hx hev => ?_, h.tombstones, fun p x hx hd => ?_⟩
      · obtain ⟨x, hx, hjd⟩ := h.events j p hj
        by_cases hpk : p = k
        · subst hpk
          obtain rfl : r = x := Option.some.inj (hr.symm.trans hx)
          exact ⟨{ r with event := true }, by rw [hruns, List.getElem?_set_self hlt], hjd⟩
        · exact ⟨x, by rw [hruns, List.getElem?_set_ne (Ne.symm hpk), hx], hjd⟩
      · rcases set_cases hruns hx with ⟨rfl, rfl⟩ | ⟨-, hx⟩
        · exact .inl (hid ▸ hi)
        · exact h.event p x hx hev
      · rcases set_cases hruns hx with ⟨rfl, rfl⟩ | ⟨-, hx⟩
        · exact h.calm p r hr hd
        · exact h.calm p x hx hd

/-- New runners are put at the end. -/
theorem fill_runners [DecidableEq N] {n : ℕ} : (fill n q).events = q.events ∧
    (fill n q).tombstones = q.tombstones ∧
    ∃ more, (fill n q).runners = q.runners ++ more ∧
      ∀ r ∈ more, r.event = false ∧ r.dispatched = false ∧ r.stage = .created := by
  induction n generalizing q with
  | zero => exact ⟨rfl, rfl, [], (List.append_nil _).symm, fun _ h => absurd h List.not_mem_nil⟩
  | succ n ih =>
    unfold fill
    split
    case h_1 => exact ⟨rfl, rfl, [], (List.append_nil _).symm, fun _ h => absurd h List.not_mem_nil⟩
    case h_2 st j _ =>
      obtain ⟨hevents, htombs, more, hmore, hall⟩ := ih (q := { q with status := st }.launch j)
      refine ⟨hevents, htombs, ⟨j, .created, false, false, false, false⟩ :: more, ?_, ?_⟩
      · rw [hmore]
        exact List.append_assoc ..
      · intro r hr
        rcases List.mem_cons.mp hr with rfl | hr
        · exact ⟨rfl, rfl, rfl⟩
        · exact hall r hr

theorem pass_runners [DecidableEq N] : q.pass.events = q.events ∧
    q.pass.tombstones = q.tombstones ∧
    ∃ more, q.pass.runners = q.runners ++ more ∧
      ∀ r ∈ more, r.event = false ∧ r.dispatched = false ∧ r.stage = .created := by
  unfold State.pass
  split
  case isTrue =>
    exact ⟨rfl, rfl, [], (List.append_nil _).symm, fun _ h => absurd h List.not_mem_nil⟩
  case isFalse => exact fill_runners

end State

namespace Controller

variable [DecidableEq I] [DecidableEq N] [DecidableEq M] [DecidableEq F]

/-! ## What is on file -/

/-- The job's verdict is only in memory: its runner is on the way to its save. -/
def Unsaved (q : State I N M F) (f : File I N M F) (j : Job I N M F) : Prop :=
  (q.status j.id).final ∧ (f.status j.id).active ∧
    ∃ r ∈ q.runners, r.job = j ∧ r.stage = .closing ∧ r.cancelling = false

/-- The file has what is in memory, but for such verdicts. -/
structure Filed (q : State I N M F) (f : File I N M F) : Prop where
  jobs : f.jobs = q.jobs
  status : ∀ j ∈ q.jobs, (f.status j.id).settled = (q.status j.id).settled ∨ Unsaved q f j

structure Durable (c : Controller I N M F) : Prop where
  good : c.queue.Good
  storable : ∀ j ∈ c.queue.jobs, Storable j
  request : ∀ r ns, c.queue.queueing = some ⟨r, ns⟩ → r.valid ∧ r.pinned
  traced : c.queue.Traced c.asked c.erred
  filed : Filed c.queue c.file

variable {q q' : State I N M F} {f : File I N M F} {c c' : Controller I N M F}

omit [DecidableEq I] [DecidableEq N] [DecidableEq M] [DecidableEq F] in
theorem filed_save (q : State I N M F) : Filed q ⟨q.jobs, q.status⟩ := ⟨rfl, fun _ _ => .inl rfl⟩

omit [DecidableEq I] [DecidableEq N] [DecidableEq M] [DecidableEq F] in
/-- Neither a status changes nor does a runner with a verdict go. -/
theorem Filed.keep (h : Filed q f) (hjobs : q'.jobs = q.jobs)
    (hstatus : ∀ j ∈ q.jobs, q'.status j.id = q.status j.id)
    (hruns : ∀ r ∈ q.runners, r.stage = .closing → r.cancelling = false → r ∈ q'.runners) :
    Filed q' f := by
  refine ⟨h.jobs.trans hjobs.symm, fun j hj => ?_⟩
  rw [hjobs] at hj
  rcases h.status j hj with he | ⟨hfinal, hact, r, hr, hjob, hs, hc⟩
  · exact .inl (by rw [hstatus j hj, he])
  · exact .inr ⟨hstatus j hj ▸ hfinal, hact, r, hruns r hr hs hc, hjob, hs, hc⟩

omit [DecidableEq I] [DecidableEq N] [DecidableEq M] [DecidableEq F] in
theorem mem_set {l : List (Runner I N M F)} {k : ℕ} {r r' x : Runner I N M F}
    (hr : l[k]? = some r) (hx : x ∈ l) (hne : x ≠ r) : x ∈ l.set k r' := by
  obtain ⟨p, hp⟩ := List.mem_iff_getElem?.mp hx
  have hpk : k ≠ p := by
    rintro rfl
    exact hne (Option.some.inj (hp.symm.trans hr))
  exact List.mem_of_getElem? ((List.getElem?_set_ne hpk).trans hp)

omit [DecidableEq N] [DecidableEq M] [DecidableEq F] in
/-- A transfer's runner comes to its verdict, and does not save it yet. -/
theorem Filed.verdict (h : Filed q f) (hg : q.Good) {k : ℕ} {r : Runner I N M F}
    (hr : q.runners[k]? = some r) (hw : r.stage.works) (hk : r.job.kind = .transfer)
    {x : State I N M F} (hjobs : x.jobs = q.jobs) (hruns : x.runners = q.runners)
    (hstatus : ∀ j ∈ q.jobs, j ≠ r.job → x.status j.id = q.status j.id)
    (hown : (x.status r.job.id).final ∨ (x.status r.job.id).active) :
    Filed (x.leave k r) f := by
  have hleave : x.leave k r = x.setRunner k { r with stage := .closing, cancelling := false } := by
    unfold State.leave
    rw [hk]
  have hlt : k < q.runners.length := (List.getElem?_eq_some_iff.mp hr).1
  have hruns' : (x.leave k r).runners =
      q.runners.set k { r with stage := .closing, cancelling := false } := by
    rw [hleave, ← hruns]
    rfl
  have hjob := hg.known k r hr
  -- on file, the job is not final
  have hfile : (f.status r.job.id).active := by
    have hrun := hg.works k r hr hw
    rcases h.status r.job hjob with he | ⟨hfinal, hact, -⟩
    · rw [hrun] at he
      cases hst : f.status r.job.id <;> simp_all [Status.settled, Status.active]
    · exact hact
  refine ⟨?_, fun j hj => ?_⟩
  · rw [hleave]
    exact h.jobs.trans hjobs.symm
  · have hst : (x.leave k r).status = x.status := by rw [hleave]; rfl
    have hj' : j ∈ q.jobs := by
      rw [hleave] at hj
      exact hjobs ▸ hj
    rw [Unsaved, hst, hruns']
    by_cases hjr : j = r.job
    · subst hjr
      rcases hown with hfinal | hact
      · exact .inr ⟨hfinal, hfile, _, List.mem_set hlt _, rfl, rfl, rfl⟩
      · exact .inl ((settled_active hfile).trans (settled_active hact).symm)
    · rw [hstatus j hj' hjr]
      rcases h.status j hj' with he | ⟨hfinal, hact, x, hx, hxj, hs, hc⟩
      · exact .inl he
      · exact .inr ⟨hfinal, hact, x, mem_set hr hx (fun he => hjr (hxj ▸ he ▸ rfl)), hxj, hs, hc⟩

omit [DecidableEq M] [DecidableEq F] in
theorem Filed.act (h : Filed q f) (hg : q.Good) {k : ℕ} {r : Runner I N M F} {a : Act}
    (hr : q.runners[k]? = some r) (hs : q.act k r a = some q') (hnot : saves q (.run k a) = false) :
    Filed q' f := by
  simp only [saves, hr] at hnot
  have hset : ∀ (j : Job I N M F), j ∈ q.jobs → j ≠ r.job → ∀ s,
      update q.status r.job.id s j.id = q.status j.id := fun j hj hne s =>
    update_of_ne (fun hid => hne (hg.loadable.inj hj (hg.known k r hr) hid)) ..
  have hkind : decide (r.job.kind = .download) = false → r.job.kind = .transfer := by
    intro hk
    cases hkk : r.job.kind with
    | download => simp [hkk] at hk
    | transfer => rfl
  cases a with
  | begin | unconfirmed | finish => cases hnot
  | abandon | dispatch | lose | returned | rollback =>
    obtain ⟨hc, rfl⟩ := guard_some hs
    refine h.keep rfl (fun _ _ => rfl) fun x hx hxs _ => mem_set hr hx ?_
    rintro rfl
    simp [hxs] at hc
  | capable | stopWriter =>
    obtain ⟨_, rfl⟩ := guard_some hs
    exact h.keep rfl (fun _ _ => rfl) fun _ hx _ _ => hx
  | drop =>
    obtain ⟨hc, rfl⟩ := guard_some hs
    refine h.keep rfl (fun _ _ => rfl) fun x hx _ hxc => mem_set hr hx ?_
    rintro rfl
    simp [hxc] at hc
  | complete =>
    obtain ⟨hc, rfl⟩ := guard_some hs
    exact h.verdict hg hr (by rw [hc.1]; rfl) (hkind hnot) rfl rfl
      (fun j hj hne => hset j hj hne _) (.inl (by simp [State.setStatus, Status.final]))
  | fail =>
    obtain ⟨hc, rfl⟩ := guard_some hs
    exact h.verdict hg hr hc (hkind hnot) rfl rfl
      (fun j hj hne => hset j hj hne _) (.inl (by simp [State.setStatus, Status.final]))
  | cancel =>
    obtain ⟨hc, hs⟩ := Option.ite_none_right_eq_some.mp hs
    have hk := hkind hnot
    rw [hk] at hs
    cases hs
    exact h.verdict hg hr hc.1 hk rfl rfl
      (fun j hj hne => hset j hj hne _) (.inl (by simp [State.setStatus, Status.final]))
  | interrupt =>
    obtain ⟨hc, rfl⟩ := guard_some hs
    split
    case isTrue =>
      exact h.verdict hg hr hc.1 (hkind hnot) rfl rfl
        (fun j hj hne => hset j hj hne _) (.inr (by simp [State.setStatus, Status.active]))
    case isFalse =>
      refine h.verdict hg hr hc.1 (hkind hnot) rfl rfl (fun _ _ _ => rfl) (.inr ?_)
      rw [hg.works k r hr hc.1]
      rfl

/-! ## The steps -/

omit [DecidableEq I] [DecidableEq M] in
theorem Durable.still (h : c.Durable) (hgood : c'.queue.Good) (hjobs : c'.queue.jobs = c.queue.jobs)
    (hrequest : ∀ r ns, c'.queue.queueing = some ⟨r, ns⟩ →
      (∃ ms, c.queue.queueing = some ⟨r, ms⟩) ∨ r.valid ∧ r.pinned)
    (htraced : c'.queue.Traced c'.asked c'.erred) (hfiled : Filed c'.queue c'.file) :
    c'.Durable := by
  refine ⟨hgood, hjobs ▸ h.storable, fun r ns hr => ?_, htraced, hfiled⟩
  rcases hrequest r ns hr with ⟨ms, hold⟩ | hnew
  · exact h.request r ms hold
  · exact hnew

omit [DecidableEq I] [DecidableEq N] [DecidableEq M] [DecidableEq F] in
/-- The runners, their events and the tombstones are as before. -/
theorem traced_eq {asked erred : List I} (h : q.Traced asked erred)
    (hruns : q'.runners = q.runners) (hevents : q'.events = q.events)
    (htombs : q'.tombstones = q.tombstones) : q'.Traced asked erred :=
  h.same hevents htombs (fun _ r hr => ⟨r, hruns ▸ hr, rfl⟩)
    fun _ r hr => .inr ⟨r, hruns ▸ hr, rfl, rfl, rfl, fun _ => rfl⟩

omit [DecidableEq M] in
/-- The steps that touch neither a job nor a runner. -/
theorem Durable.idle (h : c.Durable) {e : Label I N M F} (hgood : q'.Good)
    (hq : q'.jobs = c.queue.jobs ∧ q'.status = c.queue.status ∧ q'.runners = c.queue.runners ∧
      q'.events = c.queue.events ∧ q'.tombstones = c.queue.tombstones)
    (hrequest : ∀ r ns, q'.queueing = some ⟨r, ns⟩ →
      (∃ ms, c.queue.queueing = some ⟨r, ms⟩) ∨ r.valid ∧ r.pinned)
    (hsaves : saves c.queue e = false) (hasks : asks c.queue e = []) (herrs : errs c.queue e = []) :
    Durable ⟨q', if saves c.queue e then ⟨q'.jobs, q'.status⟩ else c.file,
      asks c.queue e ++ c.asked, errs c.queue e ++ c.erred⟩ := by
  obtain ⟨hjobs, hstatus, hruns, hevents, htombs⟩ := hq
  rw [hsaves, hasks, herrs]
  exact h.still hgood hjobs hrequest (traced_eq h.traced hruns hevents htombs)
    (h.filed.keep hjobs (fun _ _ => by rw [hstatus]) fun _ hr _ _ => hruns ▸ hr)

theorem durable_live {e : Label I N M F} (h : c.Durable) (hc : c.Gentle (.live e))
    (hs : c.queue.step e = some q') :
    Durable ⟨q', if saves c.queue e then ⟨q'.jobs, q'.status⟩ else c.file,
      asks c.queue e ++ c.asked, errs c.queue e ++ c.erred⟩ := by
  have hdrained : c.queue.Drained e := by cases e <;> first | exact hc | trivial
  have hgood := State.good_step h.good hdrained hs
  cases e with
  | setting | start | reserve | endUpdate | stopDispatcher =>
    cases hs
    exact h.idle hgood ⟨rfl, rfl, rfl, rfl, rfl⟩ (fun _ ns hr => .inl ⟨ns, hr⟩) rfl rfl rfl
  | giveUp =>
    cases hs
    exact h.idle hgood ⟨rfl, rfl, rfl, rfl, rfl⟩ (fun _ _ hr => by cases hr) rfl rfl rfl
  | queue r =>
    obtain ⟨hcond, rfl⟩ := guard_some hs
    refine h.idle hgood ⟨rfl, rfl, rfl, rfl, rfl⟩ (fun r' ns hr => .inr ?_) rfl rfl rfl
    cases hr
    exact hcond.2.2
  | check =>
    simp only [State.step] at hs
    split at hs
    case h_2 => cases hs
    case h_1 r ns heq =>
      split at hs
      case isTrue =>
        cases hs
        exact h.idle hgood ⟨rfl, rfl, rfl, rfl, rfl⟩ (fun _ _ hr => by cases hr) rfl rfl rfl
      case isFalse =>
        cases hs
        refine h.idle hgood ⟨rfl, rfl, rfl, rfl, rfl⟩ (fun r' ns' hr => .inl ⟨ns, ?_⟩) rfl rfl rfl
        cases hr
        exact heq
  | clear p =>
    simp only [State.step] at hs
    split at hs
    case h_2 => cases hs
    case h_1 =>
      obtain ⟨_, rfl⟩ := guard_some hs
      exact h.idle hgood ⟨rfl, rfl, rfl, rfl, rfl⟩ (fun _ ns hr => .inl ⟨ns, hr⟩) rfl rfl rfl
  | commit ids =>
    simp only [State.step] at hs
    split at hs
    case h_2 => cases hs
    case h_1 r heq =>
      obtain ⟨hcond, rfl⟩ := guard_some hs
      obtain ⟨hvalid, hpinned⟩ := h.request r [] heq
      refine ⟨hgood, fun j hj => ?_, fun _ _ hr => (by cases hr),
        traced_eq h.traced rfl rfl rfl, filed_save _⟩
      rcases List.mem_append.mp hj with hj | hj
      · exact h.storable j hj
      · exact Request.jobs_storable hvalid hpinned hj
  | cancel i =>
    simp only [State.step] at hs
    cases hcan : c.queue.cancelTransfer i with
    | error x =>
      rw [hcan] at hs
      cases hs
      simp only [saves, asks, errs, hcan]
      exact h
    | ok x =>
      rw [hcan] at hs
      cases hs
      simp only [saves, asks, errs, hcan]
      rcases State.cancelTransfer_cases hcan with rfl | ⟨hrun, rfl⟩ | ⟨hq, -, rfl⟩
      · refine h.still hgood rfl (fun _ ns hr => .inl ⟨ns, hr⟩)
          (h.traced.mono (List.subset_append_right ..) fun _ => id) ?_
        split
        · exact filed_save _
        · exact h.filed
      · have hact : (c.queue.status i).active := by rw [hrun]; rfl
        rw [hact, if_pos rfl, if_pos rfl]
        refine h.still hgood (State.signal_frame i).1 ?_ ((h.traced.mono
          (List.subset_append_right ..) fun _ => id).signal List.mem_cons_self) (filed_save _)
        unfold State.signal
        split
        · exact fun _ ns hr => .inl ⟨ns, hr⟩
        · split <;> exact fun _ ns hr => .inl ⟨ns, hr⟩
      · have hact : (c.queue.status i).active := by rw [hq]; rfl
        rw [hact, if_pos rfl, if_pos rfl]
        have htraced : ((c.queue.setStatus i .canceled).cancelDependents i).Traced
            ([i] ++ c.asked) c.erred :=
          traced_eq (h.traced.mono (List.subset_append_right ..) fun _ => id) rfl rfl rfl
        refine h.still hgood (State.signal_frame i).1 ?_ (htraced.signal List.mem_cons_self)
          (filed_save _)
        unfold State.signal
        split
        · exact fun _ ns hr => .inl ⟨ns, hr⟩
        · split <;> exact fun _ ns hr => .inl ⟨ns, hr⟩
  | pass =>
    obtain ⟨_, rfl⟩ := guard_some hs
    obtain ⟨hjobs, -⟩ := State.pass_fails (q := c.queue)
    obtain ⟨hevents, htombs, more, hmore, hall⟩ := State.pass_runners (q := c.queue)
    refine h.still hgood hjobs (fun _ ns hr => .inl ⟨ns, (State.pass_frame (q := c.queue)).1 ▸ hr⟩)
      (h.traced.same hevents htombs (fun k r hr => ⟨r, ?_, rfl⟩) fun k r hr => ?_) ?_
    · change c.queue.pass.runners[k]? = some r
      rw [hmore, List.getElem?_append_left (List.getElem?_eq_some_iff.mp hr).1, hr]
    · change c.queue.pass.runners[k]? = some r at hr
      rw [hmore, List.getElem?_append] at hr
      split at hr
      case isTrue => exact .inr ⟨r, hr, rfl, rfl, rfl, fun _ => rfl⟩
      case isFalse =>
        obtain ⟨hev, hd, -⟩ := hall r (List.mem_of_getElem? hr)
        exact .inl ⟨hev, hd⟩
    · cases hsv : saves c.queue (.pass : Label I N M F) with
      | true => exact filed_save _
      | false =>
        refine h.filed.keep hjobs (fun j hj => ?_) fun r hr _ _ => ?_
        · by_contra hne
          have hany : saves c.queue (.pass : Label I N M F) :=
            List.any_eq_true.mpr ⟨j, hj, decide_eq_true hne⟩
          cases hsv.symm.trans hany
        · rw [hmore]
          exact List.mem_append_left _ hr
  | run k a =>
    simp only [State.step] at hs
    split at hs
    case h_2 => cases hs
    case h_1 r hr =>
      have hlose : a = .lose → r.job.id ∈ errs c.queue (.run k a) ++ c.erred := by
        rintro rfl
        refine List.mem_append_left _ ?_
        simp [errs, hr]
      have htraced := (h.traced.mono (List.subset_append_right (asks c.queue (.run k a)) _)
        (List.subset_append_right (errs c.queue (.run k a)) _)).act hr hs hlose
      refine h.still hgood (State.act_jobs hs)
        (fun _ ns hr' => .inl ⟨ns, (State.act_acts hr hs).queueing ▸ hr'⟩) htraced ?_
      cases hsv : saves c.queue (.run k a) with
      | true => exact filed_save _
      | false => exact h.filed.act h.good hr hs hsv
  | stopRunners =>
    cases hs
    obtain ⟨hsaved, hcalm⟩ := hc
    have hget : ∀ (k : ℕ) r', (c.queue.runners.mapIdx fun k r =>
        if k ∈ c.queue.active.map Slot.runner then { r with cancelling := true } else r)[k]? =
          some r' → ∃ r, c.queue.runners[k]? = some r ∧
            r' = if k ∈ c.queue.active.map Slot.runner then { r with cancelling := true } else r := by
      intro k r' hr'
      rw [List.getElem?_mapIdx] at hr'
      obtain ⟨r, hr, he⟩ := Option.map_eq_some_iff.mp hr'
      exact ⟨r, hr, he.symm⟩
    refine h.still hgood rfl (fun _ ns hr => .inl ⟨ns, hr⟩)
      (h.traced.same rfl rfl (fun k r hr => ?_) fun k r' hr' => ?_) ⟨h.filed.jobs, fun j hj => ?_⟩
    · refine ⟨if k ∈ c.queue.active.map Slot.runner then { r with cancelling := true } else r, ?_, ?_⟩
      · change (c.queue.runners.mapIdx _)[k]? = _
        rw [List.getElem?_mapIdx, hr]
        rfl
      · split <;> rfl
    · obtain ⟨r, hr, rfl⟩ := hget k r' hr'
      refine .inr ⟨r, hr, ?_⟩
      split
      case isTrue hmem =>
        refine ⟨rfl, rfl, rfl, fun hd => ?_⟩
        obtain ⟨e, he, rfl⟩ := List.mem_map.mp hmem
        rw [hcalm e he r hr] at hd
        cases hd
      case isFalse => exact ⟨rfl, rfl, rfl, fun _ => rfl⟩
    · refine .inl ((h.filed.status j hj).resolve_right ?_)
      rintro ⟨hfinal, hact, r, hr, rfl, hstage, -⟩
      rw [hsaved r hr hstage hfinal] at hact
      rw [Status.final_eq_false_of_active hact] at hfinal
      cases hfinal

omit [DecidableEq M] [DecidableEq N] in
theorem load_jobs (hstore : ∀ j ∈ f.jobs, Storable j) : f.load.jobs = f.jobs := by
  have hall : ∀ l : List (Job I N M F), (∀ j ∈ l, Storable j) → l.filterMap loadJob = l := by
    intro l
    induction l with
    | nil => exact fun _ => rfl
    | cons j l ih =>
      intro hl
      rw [List.filterMap_cons_some (hl j List.mem_cons_self).load,
        ih fun i hi => hl i (List.mem_cons_of_mem j hi)]
  exact hall f.jobs hstore

omit [DecidableEq M] [DecidableEq N] in
theorem load_status (hload : Loadable f.jobs) (hstore : ∀ j ∈ f.jobs, Storable j)
    (hj : j ∈ f.jobs) : f.load.status j.id = (f.status j.id).settled := by
  unfold File.load
  dsimp only
  cases hf : f.jobs.find? fun i => i.id = j.id with
  | none => exact absurd rfl (find_id_none hf j hj)
  | some i =>
    obtain ⟨hi, hid⟩ := find_id hf
    obtain rfl := hload.inj hi hj hid
    exact (hstore i hi).loadStatus _

/-- A restart when every verdict is saved. -/
theorem Durable.survives (h : c.Durable) (hc : c.Saved) (hs : c.step .restart = some c') :
    c.Survives c' ∧ c'.Durable := by
  cases hs
  have hstore : ∀ j ∈ c.file.jobs, Storable j := h.filed.jobs ▸ h.storable
  have hload : Loadable c.file.jobs := h.filed.jobs ▸ h.good.loadable
  have hjobs : c.file.load.jobs = c.queue.jobs := (load_jobs hstore).trans h.filed.jobs
  have hstatus : ∀ j ∈ c.queue.jobs, c.file.load.status j.id = (c.queue.status j.id).settled := by
    intro j hj
    rw [load_status hload hstore (h.filed.jobs ▸ hj)]
    refine (h.filed.status j hj).resolve_right ?_
    rintro ⟨hfinal, hact, r, hr, rfl, hstage, -⟩
    rw [hc r hr hstage hfinal] at hact
    rw [Status.final_eq_false_of_active hact] at hfinal
    cases hfinal
  refine ⟨⟨hjobs, fun j hj hfinal => ?_, fun j hj hact => ?_⟩, State.good_init (hjobs ▸ h.good.loadable),
    fun j hj => h.storable j (hjobs ▸ hj), (fun r ns hr => by cases hr),
    ⟨(fun i k hi => by cases hi), (fun k r hr => by simp [State.init] at hr), h.traced.tombstones,
      fun k r hr => by simp [State.init] at hr⟩, ?_⟩
  · exact (hstatus j hj).trans (settled_final hfinal)
  · exact (hstatus j hj).trans (settled_active hact)
  · split
    case isTrue => exact filed_save _
    case isFalse =>
      refine ⟨h.filed.jobs.trans hjobs.symm, fun j hj => .inl ?_⟩
      rw [hjobs, ← h.filed.jobs] at hj
      change (c.file.status j.id).settled = (c.file.load.status j.id).settled
      rw [load_status hload hstore hj]
      cases c.file.status j.id <;> rfl

theorem durable_step {e : Event I N M F} (h : c.Durable) (hc : c.Gentle e)
    (hs : c.step e = some c') : c'.Durable := by
  cases e with
  | live e =>
    simp only [step] at hs
    split at hs
    case h_1 => cases hs
    case h_2 q hq =>
      cases hs
      exact durable_live h hc hq
  | progress =>
    cases hs
    exact ⟨h.good, h.storable, h.request, h.traced, filed_save _⟩
  | restart => exact (h.survives hc hs).2

omit [DecidableEq I] [DecidableEq M] in
theorem durable_init {enabled : Bool} : (init enabled : Controller I N M F).Durable where
  good := State.good_init ⟨List.nodup_nil, .nil, fun _ h => absurd h List.not_mem_nil⟩
  storable _ hj := absurd hj List.not_mem_nil
  request _ _ hr := by cases hr
  traced := ⟨nofun, (fun k r hr => by simp [init, State.init] at hr),
    fun _ hi => absurd hi List.not_mem_nil, fun k r hr => by simp [init, State.init] at hr⟩
  filed := ⟨rfl, fun _ hj => absurd hj List.not_mem_nil⟩

omit [DecidableEq M] in
theorem Durable.spared (h : c.Durable) : c.Spared := by
  intro k r hr hasked herred
  refine if_neg ?_
  rintro ⟨hw, -, hev | htomb | hcan⟩
  · rcases h.traced.event k r hr hev with hmem | hmem
    · exact hasked hmem
    · exact herred hmem
  · rcases h.traced.tombstones _ htomb with hmem | hmem
    · exact hasked hmem
    · exact herred hmem
  · rw [h.good.works k r hr hw] at hcan
    cases hcan

/-- **Restarts**, over the runs that meet `Gentle`: each of them keeps the queue, and no job is
canceled that is run and that neither a user nor an error has stopped. -/
theorem restart_survives {enabled : Bool} {c : Controller I N M F}
    (h : Reach step Gentle (init enabled) c) : c.Spared ∧
      ∀ c', c.Gentle .restart → c.step .restart = some c' → c.Survives c' := by
  have hd := h.invariant (P := Durable) durable_init fun _ _ _ ha hc hs => durable_step ha hc hs
  exact ⟨hd.spared, fun c' hc hs => (hd.survives hc hs).1⟩

/-- A download for two nodes and a transfer; a user stops the download, which is queued again; the
controller is killed while it is written, and stopped when the writer is through. -/
def historyRun : List (Event ℕ ℕ ℕ ℕ) :=
  [.live (.queue (.transfer 8 3 [4] none none false)), .live .check, .live (.commit [9]),
    .live (.queue (.download 7 (String.ofList (List.replicate 40 'a')) none 1 [] [2] none none true)),
    .live .check, .live (.commit [10, 11]), .live .pass, .live (.run 0 .begin),
    .live (.run 1 .begin), .live (.run 1 .dispatch), .progress, .live (.run 0 .complete),
    .live (.run 0 .finish), .restart, .live .start, .live .pass, .live (.run 0 .begin),
    .live (.run 0 .dispatch), .live (.run 0 .returned), .live .stopDispatcher, .live .stopRunners,
    .live (.run 0 .interrupt), .live (.clear 0)]

theorem restart_survives_history :
    ∃ c c' : Controller ℕ ℕ ℕ ℕ, Reach step Gentle (init true) c ∧
      c.step .restart = some c' ∧ c'.queue.status 9 = .completed ∧
      c'.queue.status 10 = .queued ∧ c.Spared ∧ c.Survives c' := by
  have hrun : (replay step Gentle (init true : Controller ℕ ℕ ℕ ℕ) historyRun).any
      (fun c => decide (c.Gentle .restart) && (c.step .restart).any fun c' =>
        decide (c'.queue.status 9 = .completed ∧ c'.queue.status 10 = .queued)) = true := by
    decide +kernel
  obtain ⟨c, hr, hc⟩ := reach_any hrun
  obtain ⟨hgentle, hnext⟩ := (Bool.and_eq_true ..).mp hc
  obtain ⟨c', hs, hc'⟩ := (Option.any_eq_true ..).mp hnext
  obtain ⟨h9, h10⟩ := of_decide_eq_true hc'
  exact ⟨c, c', hr, hs, h9, h10, (restart_survives hr).1,
    (restart_survives hr).2 c' (of_decide_eq_true hgentle) hs⟩

/-- The controller is stopped while a download is written, and runs it again. -/
def stoppedDownloadRun : List (Event ℕ ℕ ℕ ℕ) :=
  [.live (.queue (.download 7 (String.ofList (List.replicate 40 'a')) none 1 [] [] none none true)),
    .live .check, .live (.commit [10]), .live .pass, .live (.run 0 .begin),
    .live (.run 0 .dispatch), .live .stopDispatcher, .live .stopRunners,
    .live (.run 0 .stopWriter), .live (.run 0 .interrupt), .live (.clear 0), .restart, .live .start,
    .live .pass, .live (.run 0 .begin)]

/-- The controller is killed before a transfer's verdict is saved. -/
def killedTransferRun : List (Event ℕ ℕ ℕ ℕ) :=
  [.live (.queue (.transfer 8 3 [4] none none false)), .live .check, .live (.commit [9]),
    .live .pass, .live (.run 0 .begin), .live (.run 0 .complete)]

/-- A download that was stopped by a shutdown only ends as canceled; and a verdict is forgotten. -/
theorem restart_forgets :
    (∃ c : Controller ℕ ℕ ℕ ℕ, Reach step Free (init true) c ∧ c.asked = [] ∧ c.erred = [] ∧
      ¬c.Spared) ∧
    ∃ c c' : Controller ℕ ℕ ℕ ℕ, Reach step Free (init true) c ∧ c.step .restart = some c' ∧
      ¬c.Survives c' := by
  constructor
  · have hrun : (replay step Free (init true : Controller ℕ ℕ ℕ ℕ) stoppedDownloadRun).any
        (fun c => decide (c.asked = [] ∧ c.erred = []) &&
          (c.queue.runners[0]?).any fun r => (c.queue.act 0 r .cancel).isSome) = true := by
      decide +kernel
    obtain ⟨c, hr, hc⟩ := reach_any hrun
    obtain ⟨hnone, hany⟩ := (Bool.and_eq_true ..).mp hc
    obtain ⟨hasked, herred⟩ := of_decide_eq_true hnone
    refine ⟨c, hr, hasked, herred, fun hspared => ?_⟩
    obtain ⟨r, hr0, hsome⟩ := (Option.any_eq_true ..).mp hany
    rw [hspared 0 r hr0 (by simp [hasked]) (by simp [herred])] at hsome
    cases hsome
  · have hrun : (replay step Free (init true : Controller ℕ ℕ ℕ ℕ) killedTransferRun).any
        (fun c => decide (c.queue.status 9 = .completed) &&
          c.queue.jobs.any (fun j => decide (j.id = 9)) &&
          (c.step .restart).any fun c' => decide (c'.queue.status 9 = .queued)) = true := by
      decide +kernel
    obtain ⟨c, hr, hc⟩ := reach_any hrun
    obtain ⟨hc, hnext⟩ := (Bool.and_eq_true ..).mp hc
    obtain ⟨h9, hmem⟩ := (Bool.and_eq_true ..).mp hc
    obtain ⟨c', hs, hc'⟩ := (Option.any_eq_true ..).mp hnext
    obtain ⟨j, hj, hid⟩ := List.any_eq_true.mp hmem
    refine ⟨c, c', hr, hs, fun hsurvives => ?_⟩
    have hcomp := of_decide_eq_true h9
    rw [← of_decide_eq_true hid] at hcomp
    have hsame := hsurvives.final j hj (by rw [hcomp]; rfl)
    rw [hcomp, of_decide_eq_true hid] at hsame
    exact Status.noConfusion (hsame.symm.trans (of_decide_eq_true hc'))

end Controller

end SparkDeck.Vnas.Queue
