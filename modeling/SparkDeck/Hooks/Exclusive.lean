import SparkDeck.Lib.Table
import SparkDeck.Hooks.Lifecycle

/-!
# One hook at a time

`Did` is what a step does. Hence `Launched` is kept by every step, and `Inv` by those that are
`Orderly`: a task that is not done is the one in the table, and a process runs only under such a task.
So nothing is in flight when a hook is registered, and what an interruption removes is not in the
table any more.
-/

namespace SparkDeck.Hooks

open Transition

/-! ## What a step does -/

/-- The request has not returned. -/
def Pending (s : State) (r : ℕ) : Prop :=
  ∃ q : Request, s.requests[r]? = some q ∧ ∀ (o o' : Option ℕ), q ≠ .returned o o'

/-- What a request needs of the task of its hook: that it is done. -/
def Request.settled : Request → Option ℕ
  | reaping h => some h
  | returned h _ => h
  | _ => none

inductive Did (s : State) (a : Act) : State → Prop where
  | start (hfree : s.isFree) : Did s a (s.register .start)
  | stop : Did s a s.stop
  | put {h : ℕ} {hook hook' : Hook} (hk : s.hooks[h]? = some hook)
      (haction : hook'.action = hook.action) (htask : hook'.task = .done ↔ hook.task = .done)
      (hproc : hook'.process = .running → hook.process = .running ∨ hook.task ≠ .done) :
      Did s a (s.put h hook')
  | drop {h : ℕ} {hook hook' : Hook} (hk : s.hooks[h]? = some hook)
      (haction : hook'.action = hook.action) (hbad : ¬Orderly s a) : Did s a (s.put h hook')
  | finish {h : ℕ} {hook : Hook} (b : Bool) (hk : s.hooks[h]? = some hook)
      (htask : hook.task ≠ .done) (hproc : Orderly s a → hook.process ≠ .running) : Did s a (s.finish h hook b)
  | cancel {h : ℕ} : Did s a (s.cancel h)
  | request {r : ℕ} {q : Request} (hr : Pending s r)
      (hq : q = .raised ∨ ∃ h, q = .awaiting h ∨ q = .terming h ∨ q = .killing h) : Did s a (s.request r q)
  | timeout {r h : ℕ} (hr : Pending s r) : Did s a ((s.cancel h).request r (.cancelling h))
  | reap {r h : ℕ} {hook : Hook} (hr : Pending s r) (hk : s.hooks[h]? = some hook)
      (htask : hook.task = .done) : Did s a (s.request r (.reaping h))
  | leave {r h : ℕ} {hook : Hook} (hr : Pending s r) (hk : s.hooks[h]? = some hook)
      (htask : hook.task = .done ∨ s.requests[r]? = some (.reaping h)) : Did s a (s.leave r h)

variable {s s' : State} {h i r : ℕ} {hook hook' : Hook} {a : Act} {q : Request} {o : Option ℕ}

theorem Did.check (hr : Pending s r) (hk : s.hooks[h]? = some hook) (htask : hook.task = .done) :
    Did s a (s.check r h hook) := by
  unfold State.check
  split
  · exact .reap hr hk htask
  · exact .leave hr hk (Or.inl htask)

/-- The hook, or the request, of a step. -/
def Act.index : Act → ℕ
  | start | stop => 0
  | begin i | forks i | spawned i | spawnFails i | exits i | readEnds i | readFails i | cancel i
  | deliver i | cleaned i | cleanTimeout i | readyWaits i | readyTimeout i | taskEnds i
  | termTimeout i | killTimeout i | reaped i | reapTimeout i | abandon i => i

theorem did_of_stepHook (hk : s.hooks[a.index]? = some hook)
    (hs : stepHook s a.index hook a = some s') : Did s a s' := by
  cases a with
  | start | stop | readyWaits r | readyTimeout r | taskEnds r | termTimeout r | killTimeout r
  | reaped r | reapTimeout r | abandon r => cases hs
  | begin i | spawned i =>
    dsimp only [stepHook] at hs
    obtain ⟨hc, rfl⟩ := guard_some hs
    exact .put hk rfl (by simp [hc.1]) Or.inl
  | forks i =>
    dsimp only [stepHook] at hs
    obtain ⟨hc, rfl⟩ := guard_some hs
    exact .put hk rfl Iff.rfl fun _ => Or.inr (by simp [hc.1])
  | spawnFails i | readEnds i =>
    dsimp only [stepHook] at hs
    obtain ⟨hc, rfl⟩ := guard_some hs
    exact .finish false hk (by simp [hc.1]) fun _ => by simp [hc.2.2]
  | exits i =>
    dsimp only [stepHook] at hs
    obtain ⟨hc, rfl⟩ := guard_some hs
    exact .put hk rfl Iff.rfl fun he => by cases he
  | readFails i =>
    dsimp only [stepHook] at hs
    obtain ⟨hc, rfl⟩ := guard_some hs
    exact .finish false hk (by simp [hc.1]) fun ho => ho hook hk
  | cancel i =>
    dsimp only [stepHook] at hs
    obtain ⟨_, hs⟩ := Option.ite_none_left_eq_some.mp hs
    cases hs
    exact .cancel
  | deliver i =>
    dsimp only [stepHook] at hs
    obtain ⟨_, hs⟩ := Option.ite_none_left_eq_some.mp hs
    split at hs
    case h_1 ht =>
      cases hs
      exact .drop hk rfl fun ho => (ho hook hk).1 ht
    case h_2 ht | h_3 ht =>
      split at hs
      case isTrue hp =>
        cases hs
        exact .put hk rfl (by simp [ht]) Or.inl
      case isFalse hp =>
        cases hs
        exact .finish true hk (by simp [ht]) fun _ => hp
    case h_4 ht =>
      cases hs
      exact .finish true hk (by simp [ht]) fun ho => (ho hook hk).2 (Or.inl ht)
    case h_5 ht =>
      cases hs
      exact .finish true hk (by simp [ht]) fun ho => (ho hook hk).2 (Or.inr ht)
    case h_6 => cases hs
  | cleaned i =>
    dsimp only [stepHook] at hs
    obtain ⟨hc, rfl⟩ := guard_some hs
    exact .finish true hk (by rcases hc.1 with ht | ht <;> simp [ht]) fun _ => hc.2.2
  | cleanTimeout i =>
    dsimp only [stepHook] at hs
    obtain ⟨hc, rfl⟩ := guard_some hs
    exact .finish true hk (by simp [hc.1]) fun ho => ho hook hk

theorem pending_of_hook (hr : s.requests[r]? = some q) (hq : q.hook = some h) : Pending s r :=
  ⟨q, hr, fun o o' he => by rw [he] at hq; cases hq⟩

theorem did_of_stepRequest (hr : s.requests[a.index]? = some q) (hq : q.hook = some h)
    (hk : s.hooks[h]? = some hook) (hs : stepRequest s a.index q h hook a = some s') :
    Did s a s' := by
  have hp := pending_of_hook hr hq
  cases a with
  | readyWaits r =>
    dsimp only [stepRequest] at hs
    obtain ⟨hc, rfl⟩ := guard_some hs
    split
    · exact .request hp (Or.inr ⟨h, Or.inl rfl⟩)
    · split
      case isTrue ht => exact .check hp hk ht
      case isFalse => exact .request hp (Or.inr ⟨h, Or.inr (Or.inl rfl)⟩)
  | readyTimeout r =>
    dsimp only [stepRequest] at hs
    obtain ⟨hc, rfl⟩ := guard_some hs
    exact .timeout hp
  | taskEnds r =>
    dsimp only [stepRequest] at hs
    obtain ⟨ht, hs⟩ := Option.ite_none_left_eq_some.mp hs
    have ht := not_not.mp ht
    split at hs
    case h_1 =>
      cases hs
      split
      · exact .request hp (Or.inl rfl)
      · exact .leave hp hk (Or.inl ht)
    case h_2 =>
      cases hs
      exact .leave hp hk (Or.inl ht)
    case h_3 | h_4 =>
      cases hs
      split
      · exact .request hp (Or.inl rfl)
      · exact .check hp hk ht
    case h_5 => cases hs
  | termTimeout r =>
    dsimp only [stepRequest] at hs
    obtain ⟨_, rfl⟩ := guard_some hs
    exact .request hp (Or.inr ⟨h, Or.inr (Or.inr rfl)⟩)
  | killTimeout r | reapTimeout r =>
    dsimp only [stepRequest] at hs
    obtain ⟨_, rfl⟩ := guard_some hs
    exact .request hp (Or.inl rfl)
  | reaped r =>
    dsimp only [stepRequest] at hs
    obtain ⟨hc, rfl⟩ := guard_some hs
    exact .leave hp hk (Or.inr (hc.1 ▸ hr))
  | abandon r =>
    dsimp only [stepRequest] at hs
    split at hs
    case h_1 | h_2 =>
      cases hs
      exact .cancel
    case h_3 =>
      cases hs
      exact .request hp (Or.inl rfl)
  | start | stop | begin i | forks i | spawned i | spawnFails i | exits i | readEnds i
  | readFails i | cancel i | deliver i | cleaned i | cleanTimeout i => cases hs

theorem did_of_onHook (hs : s.onHook a.index a = some s') : Did s a s' := by
  unfold State.onHook at hs
  split at hs
  · next hook hk => exact did_of_stepHook hk hs
  · cases hs

theorem did_of_onRequest (hs : s.onRequest a.index a = some s') : Did s a s' := by
  unfold State.onRequest at hs
  split at hs
  · next q hr =>
    split at hs
    · next h hq =>
      split at hs
      · next hook hk => exact did_of_stepRequest hr hq hk hs
      · cases hs
    · cases hs
  · cases hs

theorem did_of_step (hs : step s a = some s') : Did s a s' := by
  cases a with
  | start =>
    dsimp only [step] at hs
    obtain ⟨hc, rfl⟩ := guard_some hs
    exact .start hc
  | stop =>
    cases hs
    exact .stop
  | readyWaits r | readyTimeout r | taskEnds r | termTimeout r | killTimeout r | reaped r
  | reapTimeout r | abandon r => exact did_of_onRequest hs
  | begin i | forks i | spawned i | spawnFails i | exits i | readEnds i | readFails i
  | cancel i | deliver i | cleaned i | cleanTimeout i => exact did_of_onHook hs

/-! ## Stops that are launched -/

theorem Launched.put (hs : Launched s) (hk : s.hooks[h]? = some hook)
    (haction : hook'.action = hook.action) : Launched (s.put h hook') := by
  intro i k hi hstop
  rcases Table.set_cases hi with ⟨rfl, rfl⟩ | ⟨_, hi'⟩
  · exact hs i hook hk (haction ▸ hstop)
  · exact hs i k hi' hstop

theorem Launched.cancel (hs : Launched s) : Launched (s.cancel h) := by
  unfold State.cancel
  split
  · next hook hk =>
    split
    · exact hs
    · exact hs.put hk rfl
  · exact hs

theorem Pending.returned_ne (hr : Pending s r) {o' : Option ℕ}
    (hi : s.requests[i]? = some (.returned o o')) : i ≠ r := by
  rintro rfl
  obtain ⟨q, hq, hne⟩ := hr
  exact hne o o' (Option.some.inj (hq.symm.trans hi))

theorem Launched.request (hs : Launched s) (hr : Pending s r) : Launched (s.request r q) := by
  intro i k hi hstop
  obtain ⟨j, o, hj⟩ := hs i k hi hstop
  exact ⟨j, o, Table.get_set_ne hj (hr.returned_ne hj)⟩

/-- Where nothing is in flight a stop hook is registered, by the request that returns. -/
theorem Launched.goOn (hs : Launched s) (hr : Pending s r) : Launched (s.goOn r o) := by
  unfold State.goOn
  split
  case isFalse => exact hs.request hr
  case isTrue =>
    intro i k hi hstop
    rcases Table.append_cases hi with hi' | ⟨rfl, _⟩
    · obtain ⟨j, o', hj⟩ := hs i k hi' hstop
      exact ⟨j, o', Table.get_set_ne hj (hr.returned_ne hj)⟩
    · obtain ⟨q, hq, _⟩ := hr
      exact ⟨r, o, Table.get_set_self hq⟩

/-- A stop begins. -/
def State.asked (s : State) : State := { s with requests := s.requests ++ [.raised] }

theorem pending_asked : Pending s.asked s.requests.length :=
  ⟨.raised, Table.get_append_length, nofun⟩

theorem Launched.asked (hs : Launched s) : Launched s.asked := by
  intro i k hi hstop
  obtain ⟨j, o, hj⟩ := hs i k hi hstop
  exact ⟨j, o, Table.get_append hj⟩

theorem stop_cases : (s.stop = s.asked.goOn s.requests.length none) ∨ s.stop = s.asked ∨
    ∃ h, s.stop = s.asked.request s.requests.length (.terming h) ∨
      s.stop = s.asked.request s.requests.length (.waiting h) := by
  unfold State.stop
  split
  · exact Or.inl rfl
  · next h _ =>
    split
    · exact Or.inl rfl
    · split
      · exact Or.inl rfl
      · split
        · exact Or.inr (Or.inl rfl)
        · split
          · exact Or.inr (Or.inr ⟨h, Or.inl rfl⟩)
          · exact Or.inr (Or.inr ⟨h, Or.inr rfl⟩)

theorem Launched.stop (hs : Launched s) : Launched s.stop := by
  rcases stop_cases (s := s) with he | he | ⟨h, he | he⟩ <;> rw [he]
  · exact hs.asked.goOn pending_asked
  · exact hs.asked
  · exact hs.asked.request pending_asked
  · exact hs.asked.request pending_asked

theorem Launched.start (hs : Launched s) : Launched (s.register .start) := by
  intro i k hi hstop
  rcases Table.append_cases hi with hi' | ⟨_, rfl⟩
  · exact hs i k hi' hstop
  · cases hstop

theorem Pending.cancel (hr : Pending s r) : Pending (s.cancel h) r := by
  unfold State.cancel
  split
  · split
    · exact hr
    · exact hr
  · exact hr

theorem Launched.step (hs : Launched s) (hd : Did s a s') : Launched s' := by
  cases hd with
  | start => exact hs.start
  | stop => exact hs.stop
  | put hk haction | drop hk haction => exact hs.put hk haction
  | finish b hk => exact hs.put hk rfl
  | cancel => exact hs.cancel
  | request hr | reap hr => exact hs.request hr
  | timeout hr => exact hs.cancel.request hr.cancel
  | leave hr => exact Launched.goOn (s := s.pop _) hs hr

/-! ## The invariant -/

structure Inv (s : State) : Prop where
  live : ∀ (h : ℕ) (k : Hook), s.hooks[h]? = some k → k.task ≠ .done → s.table = some h
  running : ∀ (h : ℕ) (k : Hook), s.hooks[h]? = some k → k.process = .running → k.task ≠ .done
  table : ∀ h, s.table = some h → ∃ k : Hook, s.hooks[h]? = some k ∧ k.task ≠ .done
  settled : ∀ (r h : ℕ) (q : Request), s.requests[r]? = some q → q.settled = some h →
    ∃ k : Hook, s.hooks[h]? = some k ∧ k.task = .done

theorem Inv.sound (hi : Inv s) : Sound s where
  exclusive i j a b hia hjb ha hb :=
    Option.some.inj ((hi.live i a hia (hi.running i a hia ha)).symm.trans
      (hi.live j b hjb (hi.running j b hjb hb)))
  interrupted r h o hr := by
    obtain ⟨k, hk, hdone⟩ := hi.settled r h _ hr rfl
    exact ⟨k, hk, hdone, fun hrun => hi.running h k hk hrun hdone⟩
  table := hi.table
  kept h k hk hrun := hi.live h k hk (hi.running h k hk hrun)

theorem Inv.put (hi : Inv s) (hk : s.hooks[h]? = some hook)
    (htask : hook'.task = .done ↔ hook.task = .done)
    (hproc : hook'.process = .running → hook.process = .running ∨ hook.task ≠ .done) :
    Inv (s.put h hook') := by
  constructor
  case live =>
    intro i k hik hlive
    rcases Table.set_cases hik with ⟨rfl, rfl⟩ | ⟨_, hik'⟩
    · exact hi.live i hook hk fun hd => hlive (htask.mpr hd)
    · exact hi.live i k hik' hlive
  case running =>
    intro i k hik hrun
    rcases Table.set_cases hik with ⟨rfl, rfl⟩ | ⟨_, hik'⟩
    · have hlive : hook.task ≠ .done := (hproc hrun).elim (hi.running i hook hk) id
      exact fun hd => hlive (htask.mp hd)
    · exact hi.running i k hik' hrun
  case table =>
    intro i hti
    obtain ⟨k, hik, hlive⟩ := hi.table i hti
    by_cases hih : i = h
    · subst hih
      cases Option.some.inj (hk.symm.trans hik)
      exact ⟨hook', Table.get_set_self hk, fun hd => hlive (htask.mp hd)⟩
    · exact ⟨k, Table.get_set_ne hik hih, hlive⟩
  case settled =>
    intro r i q hr hq
    obtain ⟨k, hik, hdone⟩ := hi.settled r i q hr hq
    by_cases hih : i = h
    · subst hih
      cases Option.some.inj (hk.symm.trans hik)
      exact ⟨hook', Table.get_set_self hk, htask.mpr hdone⟩
    · exact ⟨k, Table.get_set_ne hik hih, hdone⟩

theorem Inv.cancel (hi : Inv s) : Inv (s.cancel h) := by
  unfold State.cancel
  split
  · next hook hk =>
    split
    · exact hi
    · exact hi.put hk Iff.rfl Or.inl
  · exact hi

theorem Inv.request (hi : Inv s)
    (hq : ∀ h, q.settled = some h → ∃ k : Hook, s.hooks[h]? = some k ∧ k.task = .done) :
    Inv (s.request r q) :=
  { hi with
    settled i h q' hr hset := by
      rcases Table.set_cases hr with ⟨rfl, rfl⟩ | ⟨_, hr'⟩
      · exact hq h hset
      · exact hi.settled i h q' hr' hset }

theorem Inv.asked (hi : Inv s) : Inv s.asked :=
  { hi with
    settled r h q hr hq := by
      rcases Table.append_cases hr with hr' | ⟨_, rfl⟩
      · exact hi.settled r h q hr' hq
      · cases hq }

/-- The task in the table ends, without a process. -/
theorem Inv.finish (hi : Inv s) (hk : s.hooks[h]? = some hook) (htask : hook.task ≠ .done)
    (hproc : hook.process ≠ .running) (b : Bool) : Inv (s.finish h hook b) := by
  have htable := hi.live h hook hk htask
  have hnone : (s.finish h hook b).table = none := if_pos htable
  constructor
  case live =>
    intro i k hik hlive
    rcases Table.set_cases hik with ⟨rfl, rfl⟩ | ⟨hne, hik'⟩
    · exact absurd rfl hlive
    · exact absurd (Option.some.inj ((hi.live i k hik' hlive).symm.trans htable)) hne
  case running =>
    intro i k hik hrun
    rcases Table.set_cases hik with ⟨rfl, rfl⟩ | ⟨_, hik'⟩
    · exact absurd hrun hproc
    · exact hi.running i k hik' hrun
  case table =>
    intro i hti
    cases hnone.symm.trans hti
  case settled =>
    intro r i q hr hq
    obtain ⟨k, hik, hdone⟩ := hi.settled r i q hr hq
    have hne : i ≠ h := by
      rintro rfl
      cases Option.some.inj (hk.symm.trans hik)
      exact htask hdone
    exact ⟨k, Table.get_set_ne hik hne, hdone⟩

theorem Inv.table_none (hi : Inv s) (hfree : s.isFree) : s.table = none := by
  cases ht : s.table with
  | none => rfl
  | some h =>
    obtain ⟨k, hk, hlive⟩ := hi.table h ht
    simp [State.isFree, ht, hk] at hfree
    exact absurd hfree hlive

/-- With nothing in flight, the new hook is the only one that is not done. -/
theorem Inv.register (hi : Inv s) (hfree : s.isFree) (action : Action) :
    Inv (s.register action) := by
  have hnone := hi.table_none hfree
  constructor
  case live =>
    intro i k hik hlive
    rcases Table.append_cases hik with hik' | ⟨rfl, _⟩
    · cases hnone.symm.trans (hi.live i k hik' hlive)
    · rfl
  case running =>
    intro i k hik hrun
    rcases Table.append_cases hik with hik' | ⟨_, rfl⟩
    · exact hi.running i k hik' hrun
    · cases hrun
  case table =>
    intro i hti
    cases hti
    exact ⟨_, Table.get_append_length, nofun⟩
  case settled =>
    intro r i q hr hq
    obtain ⟨k, hik, hdone⟩ := hi.settled r i q hr hq
    exact ⟨k, Table.get_append hik, hdone⟩

theorem Inv.goOn (hi : Inv s)
    (ho : ∀ h, o = some h → ∃ k : Hook, s.hooks[h]? = some k ∧ k.task = .done) :
    Inv (s.goOn r o) := by
  unfold State.goOn
  split
  case isFalse => exact hi.request ho
  case isTrue hfree =>
    refine (hi.register hfree .stop).request fun h hset => ?_
    obtain ⟨k, hk, hdone⟩ := ho h hset
    exact ⟨k, Table.get_append hk, hdone⟩

/-- The table has another entry, if any, once the task is done. -/
theorem Inv.pop_eq (hi : Inv s) (hk : s.hooks[h]? = some hook) (hdone : hook.task = .done) :
    s.pop h = s := by
  have hne : s.table ≠ some h := by
    intro ht
    obtain ⟨k, hk', hlive⟩ := hi.table h ht
    cases Option.some.inj (hk.symm.trans hk')
    exact hlive hdone
  unfold State.pop
  rw [if_neg hne]

theorem Inv.leave (hi : Inv s) (hk : s.hooks[h]? = some hook) (hdone : hook.task = .done) :
    Inv (s.leave r h) := by
  unfold State.leave
  rw [hi.pop_eq hk hdone]
  refine hi.goOn fun i he => ?_
  cases he
  exact ⟨hook, hk, hdone⟩

theorem Inv.stop (hi : Inv s) : Inv s.stop := by
  rcases stop_cases (s := s) with he | he | ⟨h, he | he⟩ <;> rw [he]
  · exact hi.asked.goOn nofun
  · exact hi.asked
  · exact hi.asked.request nofun
  · exact hi.asked.request nofun

theorem Inv.step (hi : Inv s) (hc : Orderly s a) (hd : Did s a s') : Inv s' := by
  cases hd with
  | start hfree => exact hi.register hfree .start
  | stop => exact hi.stop
  | put hk _ htask hproc => exact hi.put hk htask hproc
  | drop hk _ hbad => exact absurd hc hbad
  | finish b hk htask hproc => exact hi.finish hk htask (hproc hc) b
  | cancel => exact hi.cancel
  | request hr hq =>
    rcases hq with rfl | ⟨h, rfl | rfl | rfl⟩
    · exact hi.request nofun
    · exact hi.request nofun
    · exact hi.request nofun
    · exact hi.request nofun
  | timeout hr => exact hi.cancel.request nofun
  | @reap r h hook hr hk htask =>
    refine hi.request fun i he => ?_
    cases he
    exact ⟨hook, hk, htask⟩
  | @leave r h hook hr hk htask =>
    rcases htask with hdone | hreap
    · exact hi.leave hk hdone
    · obtain ⟨k, hk', hdone⟩ := hi.settled r h _ hreap rfl
      exact hi.leave hk' hdone

/-! ## A step that is not orderly -/

theorem finish_table (b : Bool) : (s.finish h hook b).table ≠ some h := by
  change (if s.table = some h then none else s.table) ≠ some h
  split
  case isTrue => exact nofun
  case isFalse hne => exact hne

/-- The entry is dropped under a process. -/
theorem not_sound_finish (hk : s.hooks[h]? = some hook) (hrun : hook.process = .running) (b : Bool) :
    ¬Sound (s.finish h hook b) := fun hs =>
  finish_table b (hs.kept h _ (Table.get_set_self hk) hrun)

theorem onHook_eq (hk : s.hooks[h]? = some hook) : s.onHook h a = stepHook s h hook a := by
  unfold State.onHook
  rw [hk]

theorem Inv.disorderly (hi : Inv s) (hc : ¬Orderly s a) (hs : Hooks.step s a = some s') :
    ¬Sound s' := by
  cases a with
  | readFails i =>
    simp only [Orderly, not_forall, not_not] at hc
    obtain ⟨k, hk, hrun⟩ := hc
    have hs := (onHook_eq hk).symm.trans hs
    dsimp only [stepHook] at hs
    obtain ⟨_, rfl⟩ := guard_some hs
    exact not_sound_finish hk hrun false
  | cleanTimeout i =>
    simp only [Orderly, not_forall, not_not] at hc
    obtain ⟨k, hk, hrun⟩ := hc
    have hs := (onHook_eq hk).symm.trans hs
    dsimp only [stepHook] at hs
    obtain ⟨_, rfl⟩ := guard_some hs
    exact not_sound_finish hk hrun true
  | deliver i =>
    simp only [Orderly, not_forall] at hc
    obtain ⟨k, hk, hbad⟩ := hc
    have hs := (onHook_eq hk).symm.trans hs
    dsimp only [stepHook] at hs
    obtain ⟨_, hs⟩ := Option.ite_none_left_eq_some.mp hs
    split at hs
    case h_1 ht =>
      cases hs
      intro hsound
      obtain ⟨k', hk', hlive⟩ := hsound.table i (hi.live i k hk (by simp [ht]))
      rcases Table.set_cases hk' with ⟨_, rfl⟩ | ⟨hne, _⟩
      · exact hlive rfl
      · exact hne rfl
    case h_2 ht | h_3 ht => simp [ht] at hbad
    case h_4 ht | h_5 ht =>
      cases hs
      exact not_sound_finish hk (by simpa [ht] using hbad) true
    case h_6 => cases hs
  | start | stop | begin _ | forks _ | spawned _ | spawnFails _ | exits _ | readEnds _ | cancel _
  | cleaned _ | readyWaits _ | readyTimeout _ | taskEnds _ | termTimeout _ | killTimeout _
  | reaped _ | reapTimeout _ | abandon _ => exact absurd trivial hc

theorem inv_of_orderly (hr : Reach step Orderly init s) : Inv s :=
  hr.invariant ⟨nofun, nofun, nofun, nofun⟩ fun _ _ _ hi hc ht => hi.step hc (did_of_step ht)

/-- In every run a stop hook comes from an interruption that returned; where every step is `Orderly`,
the hooks of the container do not overlap, and the first step that is not leaves a state that is not
sound. -/
theorem hooks_exclusive (s : State) :
    (Reach step Free init s → Launched s) ∧ (Reach step Orderly init s → Sound s) ∧
      (Reach step Orderly init s → ∀ (a : Act) (s' : State), step s a = some s' →
        ¬Orderly s a → ¬Sound s') := by
  refine ⟨fun hr => ?_, fun hr => (inv_of_orderly hr).sound, fun hr a s' hs hc => ?_⟩
  · refine hr.invariant (fun i k hi => ?_) fun _ _ _ hl _ ht => hl.step (did_of_step ht)
    cases hi
  · exact (inv_of_orderly hr).disorderly hc hs

/-! ## Runs -/

instance (s : State) : (a : Act) → Decidable (Orderly s a)
  | .readFails _ => inferInstanceAs (Decidable (∀ _ : Hook, _ → _))
  | .deliver _ => inferInstanceAs (Decidable (∀ _ : Hook, _ → _))
  | .cleanTimeout _ => inferInstanceAs (Decidable (∀ _ : Hook, _ → _))
  | .start => isTrue trivial
  | .stop => isTrue trivial
  | .begin _ => isTrue trivial
  | .forks _ => isTrue trivial
  | .spawned _ => isTrue trivial
  | .spawnFails _ => isTrue trivial
  | .exits _ => isTrue trivial
  | .readEnds _ => isTrue trivial
  | .cancel _ => isTrue trivial
  | .cleaned _ => isTrue trivial
  | .readyWaits _ => isTrue trivial
  | .readyTimeout _ => isTrue trivial
  | .taskEnds _ => isTrue trivial
  | .termTimeout _ => isTrue trivial
  | .killTimeout _ => isTrue trivial
  | .reaped _ => isTrue trivial
  | .reapTimeout _ => isTrue trivial
  | .abandon _ => isTrue trivial

/-- A stop interrupts a start whose child ignores the first signal, and its own hook runs. -/
def interruptedStart : List Act :=
  [.start, .begin 0, .forks 0, .spawned 0, .stop, .termTimeout 0, .exits 0, .readEnds 0,
    .taskEnds 0, .begin 1, .forks 1, .spawned 1]

/-- Both hooks are there, and the process of the second is running. -/
def stopRuns (s : State) : Bool :=
  match s.hooks with
  | [a, b] => a.action = .start && a.task = .done && b.action = .stop && b.process = .running
  | _ => false

/-- A process is running whose task awaits its end. -/
def dying (s : State) : Bool :=
  match s.hooks with
  | [a] => a.process = .running && a.task = .cleaning
  | _ => false

/-- `close()` cancels a start whose child outlives its `SIGKILL`. -/
def killedStart : List Act :=
  [.start, .begin 0, .forks 0, .spawned 0, .cancel 0, .deliver 0]

theorem hooks_exclusive_interrupted :
    (∃ s, Launched s ∧ Sound s ∧ stopRuns s = true) ∧
      ∃ s, dying s = true ∧ ∀ (a : Act) (s' : State), step s a = some s' → ¬Orderly s a →
        ¬Sound s' := by
  constructor
  · have hrun : (replay step Orderly init interruptedStart).any stopRuns = true := by
      decide +kernel
    obtain ⟨s, hr, hs⟩ := reach_any hrun
    have hboth := hooks_exclusive s
    exact ⟨s, hboth.1 hr.free, hboth.2.1 hr, hs⟩
  · have hrun : (replay step Orderly init killedStart).any dying = true := by decide +kernel
    obtain ⟨s, hr, hs⟩ := reach_any hrun
    exact ⟨s, hs, (hooks_exclusive s).2.2 hr⟩

/-- A stop cancels a start that is being spawned, and is cancelled itself, twice before the child of
the start has exited: the first cancellation goes to `create_subprocess_shell`, the second to its
wait for the child, and the stop goes on. -/
def cancelledTwice : List Act :=
  [.start, .begin 0, .forks 0, .stop, .readyTimeout 0, .deliver 0, .abandon 0, .deliver 0,
    .taskEnds 0, .begin 1, .forks 1]

/-- The processes of two hooks are running. -/
def overlaps (s : State) : Bool :=
  match s.hooks with
  | [a, b] => a.process = .running && b.process = .running
  | _ => false

/-- A start is cancelled before its task runs. -/
def unrunStart : List Act := [.start, .cancel 0, .deliver 0]

/-- A task is done that is in the table. -/
def keeps (s : State) : Bool :=
  match s.hooks with
  | [a] => a.task = .done && s.table = some 0
  | _ => false

/-- A process is running that is not in the table. -/
def drops (s : State) : Bool :=
  match s.hooks with
  | [a] => a.process = .running && s.table = none
  | _ => false

theorem not_sound_of_overlaps (h : overlaps s) : ¬Sound s := by
  intro hs
  unfold overlaps at h
  split at h
  · next a b hhooks =>
    simp only [Bool.and_eq_true, decide_eq_true_eq] at h
    cases hs.exclusive 0 1 a b (by rw [hhooks]; rfl) (by rw [hhooks]; rfl) h.1 h.2
  · cases h

theorem not_sound_of_keeps (h : keeps s) : ¬Sound s := by
  intro hs
  unfold keeps at h
  split at h
  · next a hhooks =>
    simp only [Bool.and_eq_true, decide_eq_true_eq] at h
    obtain ⟨k, hk, hlive⟩ := hs.table 0 h.2
    rw [hhooks] at hk
    cases hk
    exact hlive h.1
  · cases h

theorem not_sound_of_drops (h : drops s) : ¬Sound s := by
  intro hs
  unfold drops at h
  split at h
  · next a hhooks =>
    simp only [Bool.and_eq_true, decide_eq_true_eq] at h
    cases h.2.symm.trans (hs.kept 0 a (by rw [hhooks]; rfl) h.1)
  · cases h

theorem hooks_overlap :
    (∃ s, Reach step Free init s ∧ overlaps s = true ∧ ¬Sound s) ∧
      (∃ s, Reach step Free init s ∧ keeps s = true ∧ ¬Sound s) ∧
      ∃ s, Reach step Free init s ∧ drops s = true ∧ ¬Sound s := by
  refine ⟨?_, ?_, ?_⟩
  · have hrun : (replay step Free init cancelledTwice).any overlaps = true := by decide +kernel
    obtain ⟨s, hr, hs⟩ := reach_any hrun
    exact ⟨s, hr, hs, not_sound_of_overlaps hs⟩
  · have hrun : (replay step Free init unrunStart).any keeps = true := by decide +kernel
    obtain ⟨s, hr, hs⟩ := reach_any hrun
    exact ⟨s, hr, hs, not_sound_of_keeps hs⟩
  · have hrun : (replay step Free init (killedStart ++ [.cleanTimeout 0])).any drops = true := by
      decide +kernel
    obtain ⟨s, hr, hs⟩ := reach_any hrun
    exact ⟨s, hr, hs, not_sound_of_drops hs⟩

end SparkDeck.Hooks
