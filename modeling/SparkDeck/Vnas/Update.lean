import SparkDeck.Lib.Counter
import SparkDeck.Lib.Transition

/-!
# Update reservations

Model of the admission of transfers in `sparkdeck/virtual_nas.py`: `transfer_operation`,
`_reserve_stream`, `_release_stream`, `reserve_update`, `wait_for_transfers` and `end_update`
(`:4261-4331`), `_await_uncancelable` (`:806-831`), and what `_dispatch_loop` does to the tables
(`:4405-4459`).

Each step runs without an await. A task that is inside `transfer_operation` or `_await_uncancelable`
has a frame there; a task that awaits another does nothing else meanwhile. Streams that are reserved
by themselves (an import, an export whose reservation its finalizer releases) are a multiset: they
may end in any task.

A posted end reads the generation once. The updater reads and posts under its state lock; what a
rollout, which reserves without that lock, can do in between is the matter of
`SparkDeck.Update.Reservation`.

Results:
* `update_quiesces`: what holds in every state reached.
* `Good.not_work`: once `wait_for_transfers` has returned, no admission is left to inherit.
-/

namespace SparkDeck.Vnas

open Transition

/-- What a task is inside. -/
inductive Frame (T M : Type*) where
  /-- `transfer_operation(model_id)`. -/
  | operation (task : T) (model : M)
  /-- `_await_uncancelable` of the task `child`. History: the parent was admitted `work` when it made
  the call, and when that was. -/
  | awaiting (parent child : T) (admitted work : Bool) (time : ℕ)
  deriving DecidableEq

namespace Frame

variable {T M : Type*}

/-- The task that is inside `transfer_operation`. -/
def inside : Frame T M → Option T
  | .operation t _ => some t
  | .awaiting .. => none

/-- The task that awaits another. -/
def awaits : Frame T M → Option T
  | .operation .. => none
  | .awaiting p .. => some p

/-- The stream it has reserved. -/
def stream : Frame T M → Option M
  | .operation _ m => some m
  | .awaiting .. => none

/-- The task it counts in `_transfer_tasks`. -/
def admits : Frame T M → Option T
  | .operation t _ => some t
  | .awaiting _ c admitted _ _ => if admitted then some c else none

/-- The task that it makes admitted work. -/
def makesWork : Frame T M → Option T
  | .operation t _ => some t
  | .awaiting _ c _ work _ => if work then some c else none

variable (F : Multiset (Frame T M)) (t p c : T) (m : M) (w : Bool) (n : ℕ)

theorem stream_operation :
    (operation t m ::ₘ F).filterMap stream = m ::ₘ F.filterMap stream :=
  Multiset.filterMap_cons_some stream _ F rfl

theorem stream_awaiting (a : Bool) :
    (awaiting p c a w n ::ₘ F).filterMap stream = F.filterMap stream :=
  Multiset.filterMap_cons_none _ F rfl

theorem admits_operation :
    (operation t m ::ₘ F).filterMap admits = t ::ₘ F.filterMap admits :=
  Multiset.filterMap_cons_some admits _ F rfl

theorem admits_awaiting_true :
    (awaiting p c true w n ::ₘ F).filterMap admits = c ::ₘ F.filterMap admits :=
  Multiset.filterMap_cons_some admits _ F rfl

theorem admits_awaiting_false :
    (awaiting p c false w n ::ₘ F).filterMap admits = F.filterMap admits :=
  Multiset.filterMap_cons_none _ F rfl

end Frame

structure Admission (T M : Type*) where
  updateReserved : Bool
  updateGeneration : ℕ
  /-- The calls of `_end_update_on_loop` posted to the loop, by their generation. -/
  posted : List ℕ
  streamingModels : Dict M ℕ
  transferTasks : Dict T ℕ
  /-- `_active.values()`. -/
  active : List T
  /-- The tasks that are done. -/
  finished : Finset T
  frames : Multiset (Frame T M)
  /-- The streams reserved outside `transfer_operation` and not released. -/
  streams : Multiset M
  /-- History: the calls of `_await_uncancelable` so far. -/
  time : ℕ
  /-- History: `wait_for_transfers` has returned, and the reservation has not ended since. -/
  quiet : Bool
  /-- History: admitted work was refused. -/
  wronged : Bool
  /-- History: the reservations that ended, each after the one that its end was for. -/
  ended : List (ℕ × ℕ)

inductive Label (T M : Type*) where
  | enter (task : T) (model : M)
  | leave (task : T) (model : M)
  | reserve (task : Option T) (model : M)
  | release (model : M)
  | await (parent child : T)
  | resume (frame : Frame T M)
  | finish (task : T)
  /-- The runner tasks of the jobs a dispatcher pass would start. -/
  | pass (runners : List T)
  | reserveUpdate
  /-- `end_update` on the owning loop. -/
  | endUpdate
  /-- `end_update` in another thread. -/
  | postEnd
  | deliver (k : ℕ)
  /-- `wait_for_transfers` returns. -/
  | waited

namespace Admission

variable {T M : Type*} [DecidableEq T] [DecidableEq M]

def init : Admission T M :=
  { updateReserved := false
    updateGeneration := 0
    posted := []
    streamingModels := .empty
    transferTasks := .empty
    active := []
    finished := ∅
    frames := 0
    streams := 0
    time := 0
    quiet := false
    wronged := false
    ended := [] }

variable (s : Admission T M)

/-- The task runs and awaits nothing. -/
def Running (t : T) : Prop :=
  t ∉ s.finished ∧ ∀ f ∈ s.frames, f.awaits ≠ some t

/-- Admitted work: a runner of the queue, a task inside `transfer_operation`, and the task that
admitted work awaits. -/
def Work (t : T) : Prop :=
  (t ∈ s.active ∧ t ∉ s.finished) ∨ ∃ f ∈ s.frames, f.makesWork = some t

instance (t : T) : Decidable (s.Running t) := by
  unfold Running
  infer_instance

instance (t : T) : Decidable (s.Work t) :=
  letI : Decidable (∃ f ∈ s.frames, f.makesWork = some t) := Multiset.decidableExistsMultiset
  inferInstanceAs
    (Decidable ((t ∈ s.active ∧ t ∉ s.finished) ∨ ∃ f ∈ s.frames, f.makesWork = some t))

/-- The reservations outstanding. -/
def reservations : Multiset M := s.streams + s.frames.filterMap Frame.stream

/-- `task in self._transfer_tasks or task in self._active.values()`. -/
def admitted (t : T) : Bool := (s.transferTasks.get t).isSome || t ∈ s.active

/-- `_reserve_stream`; `none` when it raises. -/
def reserveStream (t : Option T) (m : M) : Option (Admission T M) :=
  if s.updateReserved && !t.any s.admitted then none
  else some { s with streamingModels := s.streamingModels.up m }

/-- A reservation is refused. -/
def refuse (t : Option T) : Admission T M := { s with wronged := s.wronged || t.any fun t => s.Work t }

/-- `_end_update_on_loop`. -/
def endUpdateOnLoop (generation : ℕ) : Admission T M :=
  if generation ≠ s.updateGeneration then s
  else
    { s with
      updateReserved := false
      quiet := false
      ended := s.ended ++ [(generation, s.updateGeneration)] }

def step (s : Admission T M) : Label T M → Option (Admission T M)
  | .enter t m =>
    if s.Running t then
      match s.reserveStream (some t) m with
      | none => some (s.refuse (some t))
      | some s' => some { s' with
          transferTasks := s.transferTasks.up t
          frames := .operation t m ::ₘ s.frames }
    else none
  | .leave t m =>
    if s.Running t ∧ .operation t m ∈ s.frames then
      some { s with
        transferTasks := s.transferTasks.down t
        streamingModels := s.streamingModels.down m
        frames := s.frames.erase (.operation t m) }
    else none
  | .reserve t m =>
    if ∀ x ∈ t, s.Running x then
      match s.reserveStream t m with
      | none => some (s.refuse t)
      | some s' => some { s' with streams := m ::ₘ s.streams }
    else none
  | .release m =>
    if m ∈ s.streams then
      some { s with streamingModels := s.streamingModels.down m, streams := s.streams.erase m }
    else none
  | .await p c =>
    if s.Running p then
      some { s with
        transferTasks := if s.admitted p then s.transferTasks.up c else s.transferTasks
        frames := .awaiting p c (s.admitted p) (s.Work p) s.time ::ₘ s.frames
        time := s.time + 1 }
    else none
  | .resume f =>
    match f with
    | .operation .. => none
    | .awaiting _ c admitted _ _ =>
      if f ∈ s.frames ∧ c ∈ s.finished then
        some { s with
          transferTasks := if admitted then s.transferTasks.down c else s.transferTasks
          frames := s.frames.erase f }
      else none
  | .finish t =>
    if s.Running t ∧ ∀ f ∈ s.frames, f.inside ≠ some t then
      some { s with finished := insert t s.finished }
    else none
  | .pass runners =>
    let kept := s.active.filter fun t => t ∉ s.finished
    some { s with active := if s.updateReserved then kept else kept ++ runners }
  | .reserveUpdate =>
    some { s with updateReserved := true, updateGeneration := s.updateGeneration + 1 }
  | .endUpdate => some (s.endUpdateOnLoop s.updateGeneration)
  | .postEnd => some { s with posted := s.posted ++ [s.updateGeneration] }
  | .deliver k =>
    match s.posted[k]? with
    | none => none
    | some g => some ({ s with posted := s.posted.eraseIdx k }.endUpdateOnLoop g)
  | .waited =>
    if s.streamingModels.keys = ∅ ∧ ∀ t ∈ s.active, t ∈ s.finished then
      some { s with quiet := s.updateReserved }
    else none

/-! ## What holds -/

/-- What an update reservation is for. -/
structure Quiesces : Prop where
  /-- From the moment `wait_for_transfers` returns until the reservation ends, nothing is in
  progress -/
  idle : s.quiet → s.updateReserved ∧ s.reservations = 0 ∧
    (∀ t ∈ s.active, t ∈ s.finished) ∧ ∀ t, ¬s.Work t
  /-- and nothing is admitted. -/
  shut : s.quiet → ∀ t : Option T, (∀ x ∈ t, x ∉ s.finished) → ∀ m, s.reserveStream t m = none
  /-- Admitted work is not refused. -/
  nested : s.wronged = false
  /-- An end is for the reservation that it ends. -/
  ends : ∀ e ∈ s.ended, e.1 = e.2
  /-- The counters count the reservations. -/
  counters : ∀ m, (s.streamingModels.get m).getD 0 = s.reservations.count m

/-- The tables and the frames agree. -/
structure Good : Prop where
  streaming : s.streamingModels.Counts s.reservations
  tasks : s.transferTasks.Counts (s.frames.filterMap Frame.admits)
  /-- A task that is inside something is not done. -/
  alive : ∀ f ∈ s.frames, ∀ t, f.inside = some t ∨ f.awaits = some t → t ∉ s.finished
  /-- Admission is inherited from admitted work, -/
  faithful : ∀ f ∈ s.frames, f.admits = f.makesWork
  /-- which had it before. -/
  rooted : ∀ p c w n, .awaiting p c true w n ∈ s.frames → (p ∈ s.active ∧ p ∉ s.finished) ∨
    (∃ m, .operation p m ∈ s.frames) ∨ ∃ q w' k, .awaiting q p true w' k ∈ s.frames ∧ k < n
  past : ∀ p c a w n, .awaiting p c a w n ∈ s.frames → n < s.time
  idle : s.quiet → s.updateReserved ∧ s.reservations = 0 ∧
    ∀ t ∈ s.active, t ∈ s.finished
  nested : s.wronged = false
  ends : ∀ e ∈ s.ended, e.1 = e.2

variable {s} {s' : Admission T M} {t : T} {x : Option T} {m : M}

/-- Admission is inherited along calls that were made one after the other, so it leads back to a
runner or to a `transfer_operation`. -/
theorem Good.no_calls (h : s.Good) (hact : ∀ t ∈ s.active, t ∈ s.finished)
    (hop : ∀ t m, .operation t m ∉ s.frames) (n : ℕ) :
    ∀ p c w, .awaiting p c true w n ∉ s.frames := by
  induction n using Nat.strong_induction_on with
  | _ n ih =>
    intro p c w hmem
    rcases h.rooted p c w n hmem with ⟨hp, hlive⟩ | ⟨m, hm⟩ | ⟨q, w', k, hq, hk⟩
    · exact hlive (hact p hp)
    · exact hop p m hm
    · exact ih k hk q p w' hq

omit [DecidableEq T] [DecidableEq M] in
theorem no_operation (hres : s.reservations = 0) (t : T) (m : M) :
    .operation t m ∉ s.frames := by
  intro hmem
  have hm : m ∈ s.reservations :=
    Multiset.mem_add.mpr (.inr ((Multiset.mem_filterMap _ _).mpr ⟨_, hmem, rfl⟩))
  simp [hres] at hm

/-- **No admission is left** when nothing is reserved and the runners are done. -/
theorem Good.not_work (h : s.Good) (hres : s.reservations = 0)
    (hact : ∀ t ∈ s.active, t ∈ s.finished) (t : T) : ¬s.Work t := by
  rintro (⟨hmem, hlive⟩ | ⟨f, hf, hwork⟩)
  · exact hlive (hact t hmem)
  · rw [← h.faithful f hf] at hwork
    cases f with
    | operation t' m => exact no_operation hres t' m hf
    | awaiting p c a w n =>
      cases a with
      | true => exact h.no_calls hact (no_operation hres) n p c w hf
      | false => simp [Frame.admits] at hwork

/-- The tables know the admitted work. -/
theorem Good.admitted_iff (h : s.Good) (ht : t ∉ s.finished) : s.admitted t ↔ s.Work t := by
  simp only [admitted, Bool.or_eq_true, decide_eq_true_eq, h.tasks.isSome_iff,
    Multiset.mem_filterMap, Work]
  constructor
  · rintro (⟨f, hf, hadm⟩ | hmem)
    · exact .inr ⟨f, hf, by rw [← h.faithful f hf, hadm]⟩
    · exact .inl ⟨hmem, ht⟩
  · rintro (⟨hmem, -⟩ | ⟨f, hf, hwork⟩)
    · exact .inr hmem
    · exact .inl ⟨f, hf, by rw [h.faithful f hf, hwork]⟩

theorem Good.shut (h : s.Good) (hquiet : s.quiet) {t : Option T}
    (ht : ∀ x ∈ t, x ∉ s.finished) (m : M) : s.reserveStream t m = none := by
  obtain ⟨hres, hzero, hact⟩ := h.idle hquiet
  have hno : t.any s.admitted = false := by
    cases t with
    | none => rfl
    | some x =>
      rw [Option.any_some, ← Bool.not_eq_true, h.admitted_iff (ht x rfl)]
      exact h.not_work hzero hact x
  simp [reserveStream, hres, hno]

theorem Good.quiesces (h : s.Good) : s.Quiesces :=
  { h with
    idle hquiet :=
      have ⟨hres, hzero, hact⟩ := h.idle hquiet
      ⟨hres, hzero, hact, h.not_work hzero hact⟩
    shut hquiet _ ht := h.shut hquiet ht
    counters m := h.streaming.getD m }

theorem good_init : (init : Admission T M).Good where
  streaming := Dict.counts_empty
  tasks := Dict.counts_empty
  alive := by simp [init]
  faithful := by simp [init]
  rooted := by simp [init]
  past := by simp [init]
  idle := by simp [init]
  nested := rfl
  ends := by simp [init]

/-! ## One step -/

theorem reserveStream_cases (hr : s.reserveStream x m = some s') :
    s' = { s with streamingModels := s.streamingModels.up m } := by
  unfold reserveStream at hr
  split at hr
  · cases hr
  · exact (Option.some.inj hr).symm

/-- What is refused is not admitted work. -/
theorem Good.refuse (h : s.Good) (ht : ∀ y ∈ x, y ∉ s.finished)
    (hr : s.reserveStream x m = none) : (s.refuse x).Good := by
  have hno : (x.any fun t => s.Work t) = false := by
    unfold reserveStream at hr
    split at hr
    case isFalse => cases hr
    case isTrue hc =>
      cases x with
      | none => rfl
      | some t =>
        simp only [Option.any_some, Bool.and_eq_true, Bool.not_eq_true'] at hc
        simp only [Option.any_some, decide_eq_false_iff_not, ← h.admitted_iff (ht t rfl), hc.2,
          Bool.false_eq_true, not_false_eq_true]
  exact { h with nested := by simp [Admission.refuse, h.nested, hno] }

theorem Good.not_quiet (h : s.Good) (ht : ∀ y ∈ x, y ∉ s.finished)
    (hr : s.reserveStream x m = some s') : s.quiet = false := by
  by_contra hquiet
  simp [h.shut (by simpa using hquiet) ht m] at hr

theorem Good.enter (h : s.Good) (hrun : s.Running t) (hquiet : s.quiet = false) :
    { s with
      streamingModels := s.streamingModels.up m
      transferTasks := s.transferTasks.up t
      frames := .operation t m ::ₘ s.frames }.Good where
  streaming := by
    have hs := h.streaming.up m
    unfold reservations at hs ⊢
    rwa [Frame.stream_operation, Multiset.add_cons]
  tasks := by
    rw [Frame.admits_operation]
    exact h.tasks.up t
  alive f hf y hy := by
    rcases Multiset.mem_cons.mp hf with rfl | hf
    · rcases hy with hy | hy
      · exact Option.some.inj hy ▸ hrun.1
      · cases hy
    · exact h.alive f hf y hy
  faithful f hf := by
    rcases Multiset.mem_cons.mp hf with rfl | hf
    · rfl
    · exact h.faithful f hf
  rooted p c w n hf := by
    rcases Multiset.mem_cons.mp hf with hf | hf
    · cases hf
    rcases h.rooted p c w n hf with hact | ⟨m', hm⟩ | ⟨q, w', k, hq, hk⟩
    · exact .inl hact
    · exact .inr (.inl ⟨m', Multiset.mem_cons_of_mem hm⟩)
    · exact .inr (.inr ⟨q, w', k, Multiset.mem_cons_of_mem hq, hk⟩)
  past p c a w n hf := by
    rcases Multiset.mem_cons.mp hf with hf | hf
    · cases hf
    · exact h.past p c a w n hf
  idle hq := absurd hq (by simp [hquiet])
  nested := h.nested
  ends := h.ends

/-- A frame goes: a task leaves a block, or returns from a wait. The task ran, or what it awaited is
done, so no admission rests on that frame. -/
theorem Good.drop (h : s.Good) {f : Frame T M} (hf : f ∈ s.frames)
    (hop : ∀ t m, f = .operation t m → ∀ g ∈ s.frames, g.awaits ≠ some t)
    (haw : ∀ p c a w n, f = .awaiting p c a w n → c ∈ s.finished)
    {streaming : Dict M ℕ} {tasks : Dict T ℕ}
    (hs : streaming.Counts (s.streams + (s.frames.erase f).filterMap Frame.stream))
    (ht : tasks.Counts ((s.frames.erase f).filterMap Frame.admits)) :
    { s with
      streamingModels := streaming
      transferTasks := tasks
      frames := s.frames.erase f }.Good where
  streaming := hs
  tasks := ht
  alive g hg := h.alive g (Multiset.mem_of_mem_erase hg)
  faithful g hg := h.faithful g (Multiset.mem_of_mem_erase hg)
  rooted p c w n hmem := by
    have hold := Multiset.mem_of_mem_erase hmem
    have hp := h.alive _ hold p (.inr rfl)
    rcases h.rooted p c w n hold with hact | ⟨m, hm⟩ | ⟨q, w', k, hq, hk⟩
    · exact .inl hact
    · refine .inr (.inl ⟨m, (Multiset.mem_erase_of_ne ?_).mpr hm⟩)
      rintro rfl
      exact hop p m rfl _ hold rfl
    · refine .inr (.inr ⟨q, w', k, (Multiset.mem_erase_of_ne ?_).mpr hq, hk⟩)
      rintro rfl
      exact hp (haw q p true w' k rfl)
  past p c a w n hmem := h.past p c a w n (Multiset.mem_of_mem_erase hmem)
  idle hq := by
    obtain ⟨hres, hzero, hact⟩ := h.idle hq
    refine ⟨hres, ?_, hact⟩
    rw [← Multiset.le_zero, ← hzero]
    exact add_le_add_right (Multiset.filterMap_le_filterMap _ (Multiset.erase_le f _)) _
  nested := h.nested
  ends := h.ends

theorem Good.leave (h : s.Good) (hrun : s.Running t) (hf : .operation t m ∈ s.frames) :
    { s with
      transferTasks := s.transferTasks.down t
      streamingModels := s.streamingModels.down m
      frames := s.frames.erase (.operation t m) }.Good := by
  have hcons := Multiset.cons_erase hf
  refine h.drop hf (fun t' m' he => ?_) nofun ?_ ?_
  · cases he
    exact hrun.2
  · have hs := h.streaming
    unfold reservations at hs
    rw [← hcons, Frame.stream_operation, Multiset.add_cons] at hs
    exact hs.down
  · have ht := h.tasks
    rw [← hcons, Frame.admits_operation] at ht
    exact ht.down

theorem Good.resume (h : s.Good) {p c : T} {a w : Bool} {n : ℕ}
    (hf : .awaiting p c a w n ∈ s.frames) (hc : c ∈ s.finished) :
    { s with
      transferTasks := if a then s.transferTasks.down c else s.transferTasks
      frames := s.frames.erase (.awaiting p c a w n) }.Good := by
  have hcons := Multiset.cons_erase hf
  refine h.drop hf nofun (fun _ _ _ _ _ he => ?_) ?_ ?_
  · cases he
    exact hc
  · have hs := h.streaming
    unfold reservations at hs
    rwa [← hcons, Frame.stream_awaiting] at hs
  · have ht := h.tasks
    cases a with
    | true =>
      rw [← hcons, Frame.admits_awaiting_true] at ht
      exact ht.down
    | false => rwa [← hcons, Frame.admits_awaiting_false] at ht

theorem Good.await (h : s.Good) (hrun : s.Running t) (c : T) :
    { s with
      transferTasks := if s.admitted t then s.transferTasks.up c else s.transferTasks
      frames := .awaiting t c (s.admitted t) (s.Work t) s.time ::ₘ s.frames
      time := s.time + 1 }.Good := by
  have hsame : s.admitted t = decide (s.Work t) := by
    rw [Bool.eq_iff_iff, h.admitted_iff hrun.1, decide_eq_true_eq]
  refine
    { streaming := ?_, tasks := ?_, alive := ?_, faithful := ?_, rooted := ?_, past := ?_,
      idle := fun hq => ?_, nested := h.nested, ends := h.ends }
  · have hs := h.streaming
    unfold reservations at hs ⊢
    rwa [Frame.stream_awaiting]
  · have ht := h.tasks
    cases ha : s.admitted t with
    | true =>
      rw [Frame.admits_awaiting_true]
      exact ht.up c
    | false => rwa [Frame.admits_awaiting_false]
  · intro f hf y hy
    rcases Multiset.mem_cons.mp hf with rfl | hf
    · rcases hy with hy | hy
      · cases hy
      · exact Option.some.inj hy ▸ hrun.1
    · exact h.alive f hf y hy
  · intro f hf
    rcases Multiset.mem_cons.mp hf with rfl | hf
    · simp only [Frame.admits, Frame.makesWork, hsame]
    · exact h.faithful f hf
  · intro p c' w n hf
    have hlift : ((p ∈ s.active ∧ p ∉ s.finished) ∨ (∃ m, Frame.operation p m ∈ s.frames) ∨
        ∃ q w' k, Frame.awaiting q p true w' k ∈ s.frames ∧ k < n) →
        (p ∈ s.active ∧ p ∉ s.finished) ∨
        (∃ m, .operation p m ∈ .awaiting t c (s.admitted t) (s.Work t) s.time ::ₘ s.frames) ∨
        ∃ q w' k, .awaiting q p true w' k ∈
          .awaiting t c (s.admitted t) (s.Work t) s.time ::ₘ s.frames ∧ k < n := by
      rintro (hact | ⟨m, hm⟩ | ⟨q, w', k, hq, hk⟩)
      · exact .inl hact
      · exact .inr (.inl ⟨m, Multiset.mem_cons_of_mem hm⟩)
      · exact .inr (.inr ⟨q, w', k, Multiset.mem_cons_of_mem hq, hk⟩)
    refine hlift ?_
    rcases Multiset.mem_cons.mp hf with he | hf
    · -- the call is made by admitted work
      obtain ⟨rfl, rfl, hadm, -, rfl⟩ := Frame.awaiting.inj he
      rcases (h.admitted_iff hrun.1).mp hadm.symm with hact | ⟨g, hg, hwork⟩
      · exact .inl hact
      · rw [← h.faithful g hg] at hwork
        cases g with
        | operation t' m =>
          cases hwork
          exact .inr (.inl ⟨m, hg⟩)
        | awaiting q c'' a w' k =>
          cases a with
          | false => simp [Frame.admits] at hwork
          | true =>
            cases hwork
            exact .inr (.inr ⟨q, w', k, hg, h.past _ _ _ _ _ hg⟩)
    · exact h.rooted p c' w n hf
  · intro p c' a w n hf
    rcases Multiset.mem_cons.mp hf with he | hf
    · obtain ⟨-, -, -, -, rfl⟩ := Frame.awaiting.inj he
      exact Nat.lt_succ_self _
    · exact Nat.lt_succ_of_lt (h.past p c' a w n hf)
  · obtain ⟨hres, hzero, hact⟩ := h.idle hq
    refine ⟨hres, ?_, hact⟩
    unfold reservations at hzero ⊢
    rwa [Frame.stream_awaiting]

theorem Good.finish (h : s.Good) (hrun : s.Running t) (hop : ∀ f ∈ s.frames, f.inside ≠ some t) :
    { s with finished := insert t s.finished }.Good :=
  { h with
    alive := by
      intro f hf y hy
      rw [Finset.mem_insert, not_or]
      refine ⟨?_, h.alive f hf y hy⟩
      rintro rfl
      rcases hy with hy | hy
      · exact hop f hf hy
      · exact hrun.2 f hf hy
    rooted := by
      intro p c w n hf
      refine (h.rooted p c w n hf).imp_left fun hact => ⟨hact.1, ?_⟩
      rw [Finset.mem_insert, not_or]
      refine ⟨?_, hact.2⟩
      rintro rfl
      exact hrun.2 _ hf rfl
    idle := by
      intro hq
      obtain ⟨hres, hzero, hact⟩ := h.idle hq
      exact ⟨hres, hzero, fun y hy => Finset.mem_insert_of_mem (hact y hy)⟩ }

theorem Good.pass (h : s.Good) (runners : List T) :
    { s with
      active :=
        if s.updateReserved then s.active.filter fun t => t ∉ s.finished
        else (s.active.filter fun t => t ∉ s.finished) ++ runners }.Good := by
  have hkept : ∀ {p}, p ∈ s.active → p ∉ s.finished →
      p ∈ if s.updateReserved then s.active.filter fun t => t ∉ s.finished
        else (s.active.filter fun t => t ∉ s.finished) ++ runners := by
    intro p hp hlive
    have hmem : p ∈ s.active.filter fun t => t ∉ s.finished :=
      List.mem_filter.mpr ⟨hp, by simpa using hlive⟩
    split
    · exact hmem
    · exact List.mem_append_left _ hmem
  refine
    { h with
      rooted := fun p c w n hf =>
        (h.rooted p c w n hf).imp_left fun hact => ⟨hkept hact.1 hact.2, hact.2⟩
      idle := fun hq => ?_ }
  obtain ⟨hres, hzero, hact⟩ := h.idle hq
  refine ⟨hres, hzero, fun y hy => hact y ?_⟩
  rw [if_pos hres] at hy
  exact (List.mem_filter.mp hy).1

theorem Good.endUpdateOnLoop (h : s.Good) (g : ℕ) : (s.endUpdateOnLoop g).Good := by
  unfold Admission.endUpdateOnLoop
  split
  case isTrue => exact h
  case isFalse hg =>
    refine { h with idle := by simp, ends := fun e he => ?_ }
    rcases List.mem_append.mp he with he | he
    · exact h.ends e he
    · rw [List.mem_singleton.mp he]
      exact not_not.mp hg

/-- **One step.** -/
theorem good_step {e : Label T M} (h : s.Good) (hs : step s e = some s') : s'.Good := by
  cases e with
  | enter t m =>
    obtain ⟨hrun, hs⟩ := Option.ite_none_right_eq_some.mp hs
    have hlive : ∀ y ∈ some t, y ∉ s.finished := by
      rintro y ⟨⟩
      exact hrun.1
    split at hs
    case h_1 hr =>
      cases hs
      exact h.refuse hlive hr
    case h_2 s₁ hr =>
      have hquiet := h.not_quiet hlive hr
      obtain rfl := reserveStream_cases hr
      cases hs
      exact h.enter hrun hquiet
  | leave t m =>
    obtain ⟨hc, rfl⟩ := guard_some hs
    exact h.leave hc.1 hc.2
  | reserve t m =>
    obtain ⟨hrun, hs⟩ := Option.ite_none_right_eq_some.mp hs
    have hlive : ∀ y ∈ t, y ∉ s.finished := fun y hy => (hrun y hy).1
    split at hs
    case h_1 hr =>
      cases hs
      exact h.refuse hlive hr
    case h_2 s₁ hr =>
      have hquiet := h.not_quiet hlive hr
      obtain rfl := reserveStream_cases hr
      cases hs
      refine { h with streaming := ?_, idle := fun hq => absurd hq (by simp [hquiet]) }
      have hs := h.streaming.up m
      unfold reservations at hs ⊢
      rwa [← Multiset.cons_add] at hs
  | release m =>
    obtain ⟨hm, rfl⟩ := guard_some hs
    refine { h with streaming := ?_, idle := fun hq => ?_ }
    · have hs := h.streaming
      unfold reservations at hs ⊢
      rw [← Multiset.cons_erase hm, Multiset.cons_add] at hs
      exact hs.down
    · obtain ⟨-, hzero, -⟩ := h.idle hq
      have hmem : m ∈ s.reservations := Multiset.mem_add.mpr (.inl hm)
      simp [hzero] at hmem
  | await p c =>
    obtain ⟨hrun, rfl⟩ := guard_some hs
    exact h.await hrun c
  | resume f =>
    simp only [step] at hs
    split at hs
    case h_1 => cases hs
    case h_2 p c a w n =>
      obtain ⟨hc, rfl⟩ := guard_some hs
      exact h.resume hc.1 hc.2
  | finish t =>
    obtain ⟨hc, rfl⟩ := guard_some hs
    exact h.finish hc.1 hc.2
  | pass runners =>
    cases hs
    exact h.pass runners
  | reserveUpdate =>
    cases hs
    exact { h with idle := fun hq => ⟨rfl, (h.idle hq).2⟩ }
  | endUpdate =>
    cases hs
    exact h.endUpdateOnLoop _
  | postEnd =>
    cases hs
    exact { h with }
  | deliver k =>
    simp only [step] at hs
    split at hs
    case h_1 => cases hs
    case h_2 g hg =>
      cases hs
      have hrest : { s with posted := s.posted.eraseIdx k }.Good := { h with }
      exact hrest.endUpdateOnLoop g
  | waited =>
    obtain ⟨hc, rfl⟩ := guard_some hs
    refine { h with idle := fun hq => ⟨hq, ?_, hc.2⟩ }
    exact h.streaming.keys_eq_empty_iff.mp hc.1

/-- **Update reservations.** -/
theorem update_quiesces {s : Admission T M} (h : Reach step Free init s) : s.Quiesces :=
  (h.invariant (P := Good) good_init fun _ _ _ ha _ hs => good_step ha hs).quiesces

/-- A runner and an operation are on their way when the update is reserved; the operation awaits a
task that reserves a stream of its own, another operation is refused, and when all is done the end of
the first reservation comes after the second was made. -/
def overtakenRun : List (Label ℕ ℕ) :=
  [.pass [0], .enter 1 7, .reserveUpdate, .await 1 2, .reserve (some 2) 7, .enter 3 8, .release 7,
    .finish 2, .resume (.awaiting 1 2 true true 0), .leave 1 7, .pass [4], .finish 0, .waited,
    .postEnd, .reserveUpdate, .deliver 0]

theorem update_quiesces_overtaken :
    ∃ s : Admission ℕ ℕ, Reach step Free init s ∧ s.quiet = true ∧ s.updateGeneration = 2 ∧
      s.posted = [] ∧ s.Quiesces := by
  have hrun : (replay step Free (init : Admission ℕ ℕ) overtakenRun).any
      (fun s => decide (s.quiet = true ∧ s.updateGeneration = 2 ∧ s.posted = [])) = true := by
    decide +kernel
  obtain ⟨s, hr, hs⟩ := reach_any hrun
  obtain ⟨hquiet, hgen, hposted⟩ := of_decide_eq_true hs
  exact ⟨s, hr, hquiet, hgen, hposted, update_quiesces hr⟩

end Admission

end SparkDeck.Vnas
