import SparkDeck.Download.Writer
import SparkDeck.Lib.Table

/-!
# Canceled operations stay dead

In every run of `Agent.step` (`Agent.Sound`): an operation has at most one writer; none runs when a
call is about to launch one, the first time or again; and none runs for an operation of which a
cancellation returned, which no call is about to launch either.

`turn_cases` says what a turn of a call can be. The invariant `Inv` has a call for every worker that
runs (`held`), the flag `active` for every call that is past its checks (`active`, `unique`), and the
operation of a cancellation that waits or returned on disk, inactive from `done` on (`waiting`,
`dead`).
-/

namespace SparkDeck.Download

open Transition

variable {O : Type*} [DecidableEq O]

namespace Agent

/-- What must hold of an agent. -/
structure Sound (a : Agent O) : Prop where
  /-- Two writers of one operation are the same. -/
  one : ∀ (p p' : ℕ) (P P' : Process O), a.processes[p]? = some P → a.processes[p']? = some P' →
    a.runs P → a.runs P' → P.op = P'.op → p = p'
  /-- A call that is past its checks launches no writer beside another. -/
  alone : ∀ C ∈ a.calls, C.stage.admitted → C.stage.launches →
    ∀ P ∈ a.processes, P.op = C.op → a.runs P = false
  dead : ∀ op ∈ a.confirmed, ∀ P ∈ a.processes, P.op = op → a.runs P = false
  /-- A call for such an operation has ended, or still has its checks before it. -/
  barred : ∀ op ∈ a.confirmed, ∀ C ∈ a.calls, C.op = op → C.stage.admitted = false

structure Inv (a : Agent O) : Prop where
  held : ∀ (p : ℕ) (P : Process O), a.processes[p]? = some P → a.runs P →
    ∃ (c : ℕ) (C : Call O), a.calls[c]? = some C ∧ C.op = P.op ∧ C.stage.process = some p
  active : ∀ (c : ℕ) (C : Call O), a.calls[c]? = some C → C.stage.admitted →
    (a.ops C.op).active
  unique : ∀ (c c' : ℕ) (C C' : Call O), a.calls[c]? = some C → a.calls[c']? = some C' →
    C.stage.admitted → C'.stage.admitted → C.op = C'.op → c = c'
  parents : ∀ P ∈ a.processes, P.parent ≤ a.generation
  guarded : ∀ P ∈ a.processes, P.life = .writing → P.parent = a.generation
  saved : a.broken = false → a.file ⊆ a.tombstones
  waiting : ∀ K ∈ a.cancels, K.waiter ≠ .over →
    K.op ∈ a.tombstones ∧ K.op ∈ a.file ∧ (K.waiter = .woken → (a.ops K.op).active = false)
  dead : ∀ op ∈ a.confirmed, op ∈ a.file ∧ (a.ops op).active = false

variable {a a' : Agent O} {c p : ℕ} {call : Call O} {t : Turn} {st : Stage}

theorem admitted_of_process (h : st.process = some p) : st.admitted := by
  cases st <;> first | rfl | cases h

theorem not_launches_of_process (h : st.process = some p) : st.launches = false := by
  cases st <;> first | rfl | cases h

omit [DecidableEq O] in
theorem Inv.sound (h : Inv a) : Sound a where
  one p p' P P' hp hp' hr hr' hop := by
    obtain ⟨c, C, hc, hC, hproc⟩ := h.held p P hp hr
    obtain ⟨c', C', hc', hC', hproc'⟩ := h.held p' P' hp' hr'
    obtain rfl := h.unique c c' C C' hc hc' (admitted_of_process hproc)
      (admitted_of_process hproc') (by rw [hC, hC', hop])
    cases hc.symm.trans hc'
    exact Option.some.inj (hproc.symm.trans hproc')
  alone C hC hadm hl P hP hop := by
    by_contra hr
    obtain ⟨p, hp⟩ := List.mem_iff_getElem?.mp hP
    obtain ⟨c, hc⟩ := List.mem_iff_getElem?.mp hC
    obtain ⟨c', C', hc', hC', hproc⟩ := h.held p P hp (Bool.eq_true_of_not_eq_false hr)
    obtain rfl := h.unique c c' C C' hc hc' hadm (admitted_of_process hproc) (by rw [hC', hop])
    cases hc.symm.trans hc'
    rw [not_launches_of_process hproc] at hl
    cases hl
  dead op hop P hP hPop := by
    by_contra hr
    obtain ⟨p, hp⟩ := List.mem_iff_getElem?.mp hP
    obtain ⟨c, C, hc, hC, hproc⟩ := h.held p P hp (Bool.eq_true_of_not_eq_false hr)
    have hact := h.active c C hc (admitted_of_process hproc)
    rw [hC, hPop, (h.dead op hop).2] at hact
    cases hact
  barred op hop C hC hCop := by
    by_contra hadm
    obtain ⟨c, hc⟩ := List.mem_iff_getElem?.mp hC
    have hact := h.active c C hc (Bool.eq_true_of_not_eq_false hadm)
    rw [hCop, (h.dead op hop).2] at hact
    cases hact

/-! ## Turns -/

/-- The call goes on, with the process it has. -/
def Stays (st st' : Stage) : Prop :=
  st = .delayed ∧ st' = .ended ∨
    st.admitted ∧ st'.admitted ∧ st'.process = st.process

/-- What a turn of a call is. -/
inductive Turned (a : Agent O) (c : ℕ) (call : Call O) : Agent O → Prop where
  | idle : Turned a c call a
  | goto (st : Stage) : Stays call.stage st → Turned a c call (a.goto c call st)
  | supervise : call.stage = .delayed → Turned a c call (a.supervise c call)
  | spawn (i : Bool) : call.stage = .launching i → Turned a c call (a.spawn c call i)
  | stopError : call.stage.admitted →
      Turned a c call (a.setFlags call.op { a.ops call.op with stopError := true })
  | finished (p : Option ℕ) (after : After) (error : Bool) : call.stage = .finishing p after →
      p.all a.exited → Turned a c call (a.finished c call after error)
  | conclude : call.stage = .backoff → Turned a c call (a.conclude c call)

theorem turn_cases (h : a.turn c call t = some a') : Turned a c call a' := by
  have stays : ∀ st', call.stage.admitted → st'.admitted →
      st'.process = call.stage.process → Turned a c call (a.goto c call st') :=
    fun st' h h' hp => .goto st' (Or.inr ⟨h, h', hp⟩)
  unfold Agent.turn at h
  cases hst : call.stage with
  | delayed =>
    rw [hst] at h
    cases t with
    | supervise =>
      cases h
      exact .supervise hst
    | throw =>
      cases h
      exact .goto _ (Or.inl ⟨hst, rfl⟩)
    | _ => cases h
  | reclaiming =>
    rw [hst] at h stays
    cases t with
    | reclaimed =>
      cases h
      refine stays _ rfl ?_ ?_ <;> split <;> rfl
    | leave | throw =>
      cases h
      exact stays _ rfl rfl rfl
    | _ => cases h
  | launching i =>
    rw [hst] at h stays
    cases t with
    | spawned =>
      cases h
      exact .spawn i hst
    | leave | throw =>
      cases h
      exact stays _ rfl rfl rfl
    | _ => cases h
  | running p =>
    rw [hst] at h stays
    cases t with
    | leave | throw | stalled =>
      cases h
      exact stays _ rfl rfl rfl
    | stopSeen =>
      obtain ⟨-, rfl⟩ := guard_some h
      exact stays _ rfl rfl rfl
    | completed =>
      obtain ⟨-, rfl⟩ := guard_some h
      refine stays _ rfl ?_ ?_ <;> split <;> rfl
    | _ => cases h
  | reading p =>
    rw [hst] at h stays
    cases t with
    | leave | throw =>
      cases h
      exact stays _ rfl rfl rfl
    | _ => cases h
  | finishing p after =>
    rw [hst] at h
    cases t with
    | throw =>
      cases h
      exact .idle
    | stopFailed =>
      cases p with
      | none => cases h
      | some p =>
        obtain ⟨_, h⟩ := Option.ite_none_left_eq_some.mp h
        cases h
        exact .stopError (by rw [hst]; rfl)
    | finished error =>
      obtain ⟨hp, rfl⟩ := guard_some h
      exact .finished p after error hst hp
    | _ => cases p <;> cases h
  | backoff =>
    rw [hst] at h stays
    cases t with
    | throw =>
      cases h
      exact .conclude hst
    | stopSeen =>
      obtain ⟨-, rfl⟩ := guard_some h
      exact .conclude hst
    | retry =>
      cases h
      refine stays _ rfl ?_ ?_ <;> split <;> rfl
    | _ => cases h
  | ended =>
    rw [hst] at h
    cases t <;> cases h

/-! ## What a turn keeps -/

/-- The flags of one operation change. -/
theorem setFlags_ops (a : Agent O) (op op' : O) (f : Flags) :
    (a.setFlags op f).ops op' = if op' = op then f else a.ops op' :=
  Function.update_apply a.ops op f op'

/-- Flags that do not touch `active`. -/
theorem Inv.flags (h : Inv a) (op : O) (f : Flags) (hf : f.active = (a.ops op).active) :
    Inv (a.setFlags op f) := by
  have hact : ∀ op', ((a.setFlags op f).ops op').active = (a.ops op').active := by
    intro op'
    rw [setFlags_ops]
    split
    case isTrue he => rw [hf, he]
    case isFalse => rfl
  refine { h with active := ?active, waiting := ?waiting, dead := ?dead }
  case active => exact fun c C hc hadm => (hact C.op).trans (h.active c C hc hadm)
  case waiting =>
    intro K hK hw
    obtain ⟨ht, hf, hwoken⟩ := h.waiting K hK hw
    exact ⟨ht, hf, fun hk => (hact K.op).trans (hwoken hk)⟩
  case dead => exact fun op' hop => ⟨(h.dead op' hop).1, (hact op').trans (h.dead op' hop).2⟩

omit [DecidableEq O] in
/-- A call goes on and keeps its process, or has seen it exit. -/
theorem Inv.goto (h : Inv a) (hc : a.calls[c]? = some call) (call' : Call O)
    (hop : call'.op = call.op)
    (hadm : st.admitted → call.stage.admitted)
    (hproc : ∀ p, call.stage.process = some p → st.process = some p ∨ a.exited p) :
    Inv (a.goto c call' st) := by
  refine { h with held := ?held, active := ?active, unique := ?unique }
  case held =>
    intro p P hp hr
    obtain ⟨c₀, C, hc₀, hC, hCp⟩ := h.held p P hp hr
    by_cases he : c₀ = c
    · subst he
      cases hc.symm.trans hc₀
      refine ⟨c₀, { call' with stage := st }, Table.get_set_self hc, hop.trans hC, ?_⟩
      rcases hproc p hCp with hst | hex
      · exact hst
      · have hp' : a.processes[p]? = some P := hp
        rw [Agent.exited, hp', Option.all_some, decide_eq_true_eq] at hex
        simp [Agent.runs, hex] at hr
    · exact ⟨c₀, C, Table.get_set_ne hc₀ he, hC, hCp⟩
  case active =>
    intro c₀ C hC hCadm
    rcases Table.set_cases hC with ⟨rfl, rfl⟩ | ⟨-, hC⟩
    · show (a.ops call'.op).active = true
      rw [hop]
      exact h.active c₀ call hc (hadm hCadm)
    · exact h.active c₀ C hC hCadm
  case unique =>
    intro c₁ c₂ C₁ C₂ h₁ h₂ hadm₁ hadm₂ hops
    rcases Table.set_cases h₁ with ⟨rfl, rfl⟩ | ⟨-, old₁⟩ <;>
      rcases Table.set_cases h₂ with ⟨rfl, rfl⟩ | ⟨-, old₂⟩
    · rfl
    · exact h.unique c₁ c₂ call C₂ hc old₂ (hadm hadm₁) hadm₂ (hop.symm.trans hops)
    · exact h.unique c₁ c₂ C₁ call old₁ hc hadm₁ (hadm hadm₂) (hops.trans hop)
    · exact h.unique c₁ c₂ C₁ C₂ old₁ old₂ hadm₁ hadm₂ hops

/-- Only a call past its checks makes its operation active, when it is not and may be. -/
theorem Inv.supervise (h : Inv a) (hc : a.calls[c]? = some call) (hst : call.stage = .delayed) :
    Inv (a.supervise c call) := by
  have hproc : ∀ p, call.stage.process ≠ some p := by simp [hst, Stage.process]
  unfold Agent.supervise
  simp only
  split
  case isTrue =>
    exact h.goto hc call rfl nofun fun p hp => absurd hp (hproc p)
  case isFalse hno =>
    simp only [Bool.or_eq_true, decide_eq_true_eq, not_or, Bool.not_eq_true] at hno
    obtain ⟨⟨⟨hbroken, htomb⟩, hact⟩, -⟩ := hno
    -- no other call for this operation is past its checks
    have hfree : ∀ (c' : ℕ) (C : Call O), a.calls[c']? = some C → C.stage.admitted →
        C.op ≠ call.op := by
      intro c' C hC hadm he
      have := h.active c' C hC hadm
      rw [he, hact] at this
      cases this
    have hops : ∀ op, op ≠ call.op →
        ((a.setFlags call.op { a.ops call.op with done := false, active := true }).ops op) =
          a.ops op := by
      intro op hne
      rw [setFlags_ops, if_neg hne]
    constructor
    case held =>
      intro p P hp hr
      obtain ⟨c₀, C, hc₀, hC, hCp⟩ := h.held p P hp hr
      refine ⟨c₀, C, Table.get_set_ne hc₀ ?_, hC, hCp⟩
      rintro rfl
      cases hc.symm.trans hc₀
      exact hproc p hCp
    case active =>
      intro c₀ C hC hCadm
      show ((a.setFlags _ _).ops C.op).active = true
      rcases Table.set_cases hC with ⟨-, rfl⟩ | ⟨-, hC⟩
      · rw [setFlags_ops, if_pos rfl]
      · rw [hops C.op (hfree c₀ C hC hCadm)]
        exact h.active c₀ C hC hCadm
    case unique =>
      intro c₁ c₂ C₁ C₂ h₁ h₂ hadm₁ hadm₂ hop
      rcases Table.set_cases h₁ with ⟨rfl, rfl⟩ | ⟨-, old₁⟩ <;>
        rcases Table.set_cases h₂ with ⟨rfl, rfl⟩ | ⟨-, old₂⟩
      · rfl
      · exact absurd hop.symm (hfree c₂ C₂ old₂ hadm₂)
      · exact absurd hop (hfree c₁ C₁ old₁ hadm₁)
      · exact h.unique c₁ c₂ C₁ C₂ old₁ old₂ hadm₁ hadm₂ hop
    case parents => exact h.parents
    case guarded => exact h.guarded
    case saved => exact h.saved
    case waiting =>
      intro K hK hw
      obtain ⟨ht, hf, hwoken⟩ := h.waiting K hK hw
      have hne : K.op ≠ call.op := fun he => htomb (he ▸ ht)
      refine ⟨ht, hf, fun hk => ?_⟩
      show ((a.setFlags _ _).ops K.op).active = false
      rw [hops K.op hne]
      exact hwoken hk
    case dead =>
      intro op hop
      obtain ⟨hfile, hidle⟩ := h.dead op hop
      have hne : op ≠ call.op := fun he => htomb (he ▸ h.saved hbroken hfile)
      refine ⟨hfile, ?_⟩
      show ((a.setFlags _ _).ops op).active = false
      rw [hops op hne]
      exact hidle

/-- A call that leaves has seen its process exit. -/
theorem Inv.conclude (h : Inv a) (hc : a.calls[c]? = some call)
    (hadm : call.stage.admitted)
    (hproc : ∀ p, call.stage.process = some p → a.exited p) :
    Inv (a.conclude c call) := by
  have hops : ∀ op, ((a.conclude c call).ops op).active =
      if op = call.op then false else (a.ops op).active := by
    intro op
    show ((a.setFlags _ _).ops op).active = _
    rw [setFlags_ops]
    split <;> rfl
  have hgoto : Inv (a.goto c call .ended) :=
    h.goto hc call rfl nofun fun p hp => Or.inr (hproc p hp)
  constructor
  case held => exact hgoto.held
  case active =>
    intro c₀ C hC hCadm
    rw [hops]
    have hne : C.op ≠ call.op := by
      intro he
      rcases Table.set_cases hC with ⟨-, rfl⟩ | ⟨hne, hC⟩
      · cases hCadm
      · exact hne (h.unique c₀ c C call hC hc hCadm hadm he)
    rw [if_neg hne]
    exact hgoto.active c₀ C hC hCadm
  case unique => exact hgoto.unique
  case parents => exact h.parents
  case guarded => exact h.guarded
  case saved => exact h.saved
  case waiting =>
    intro K hK hw
    obtain ⟨K₀, hK₀, rfl⟩ := List.mem_map.mp hK
    by_cases hmine : K₀.op = call.op ∧ K₀.waiter = .waiting
    · rw [if_pos hmine] at hw ⊢
      obtain ⟨ht, hf, -⟩ := h.waiting K₀ hK₀ (by rw [hmine.2]; exact Waiter.noConfusion)
      refine ⟨ht, hf, fun _ => ?_⟩
      rw [hops, if_pos hmine.1]
    · rw [if_neg hmine] at hw ⊢
      obtain ⟨ht, hf, hwoken⟩ := h.waiting K₀ hK₀ hw
      refine ⟨ht, hf, fun hk => ?_⟩
      rw [hops]
      split
      case isTrue => rfl
      case isFalse => exact hwoken hk
  case dead =>
    intro op hop
    obtain ⟨hfile, hidle⟩ := h.dead op hop
    refine ⟨hfile, ?_⟩
    rw [hops]
    split
    case isTrue => rfl
    case isFalse => exact hidle

theorem Inv.finished (h : Inv a) (hc : a.calls[c]? = some call) {q : Option ℕ} {after : After}
    (hst : call.stage = .finishing q after) (hq : q.all a.exited) (error : Bool) :
    Inv (a.finished c call after error) := by
  have hf : Inv (a.setFlags call.op { a.ops call.op with stopError := error }) := h.flags _ _ rfl
  have hproc : ∀ p, call.stage.process = some p → a.exited p := by
    intro p hp
    rw [hst] at hp
    obtain rfl : q = some p := hp
    exact hq
  unfold Agent.finished
  simp only
  split
  case isTrue => exact hf.conclude hc (by rw [hst]; rfl) hproc
  case isFalse =>
    exact hf.goto hc { call with left := call.left - 1 } rfl (fun _ => by rw [hst]; rfl)
      fun p hp => Or.inr (hproc p hp)

/-- The only call past its checks for its operation launches a worker. -/
theorem Inv.spawn (h : Inv a) (hc : a.calls[c]? = some call) {i : Bool}
    (hst : call.stage = .launching i) : Inv (a.spawn c call i) := by
  have hadm : call.stage.admitted := by rw [hst]; rfl
  -- the worker, held by the call at `st`, before the flags change
  have key : ∀ st : Stage, st.admitted → st.process = some a.processes.length →
      Inv ({ a with
        processes := a.processes ++ [(⟨call.op, a.generation, .booting⟩ : Process O)] }.goto c call
        st) := by
    intro st hstadm hstp
    have hgoto : Inv (a.goto c call st) := h.goto hc call rfl (fun _ => hadm) fun p hp => by
      rw [hst] at hp
      cases hp
    constructor
    case held =>
      intro p P hp hr
      rcases Table.append_cases hp with hp | ⟨rfl, rfl⟩
      · obtain ⟨c₀, C, hc₀, hC, hCp⟩ := hgoto.held p P hp hr
        exact ⟨c₀, C, hc₀, hC, hCp⟩
      · exact ⟨c, { call with stage := st }, Table.get_set_self hc, rfl, hstp⟩
    case active => exact hgoto.active
    case unique => exact hgoto.unique
    case parents =>
      intro P hP
      rcases Table.mem_snoc hP with hP | rfl
      · exact h.parents P hP
      · exact Nat.le_refl _
    case guarded =>
      intro P hP hw
      rcases Table.mem_snoc hP with hP | rfl
      · exact h.guarded P hP hw
      · rfl
    case saved => exact h.saved
    case waiting => exact h.waiting
    case dead => exact h.dead
  unfold Agent.spawn
  simp only
  split
  case isTrue =>
    have hk := key (.finishing (some a.processes.length) .leave) rfl rfl
    exact hk.flags _ { a.ops call.op with cancel := true } rfl
  case isFalse => exact key (.running a.processes.length) rfl rfl

theorem Inv.turn (h : Inv a) (hc : a.calls[c]? = some call) (ht : a.turn c call t = some a') :
    Inv a' := by
  cases turn_cases ht with
  | idle => exact h
  | goto st hstays =>
    rcases hstays with ⟨hd, rfl⟩ | ⟨hadm, hadm', hproc⟩
    · exact h.goto hc call rfl nofun fun p hp => by rw [hd] at hp; cases hp
    · exact h.goto hc call rfl (fun _ => hadm) fun p hp => Or.inl (hproc.trans hp)
  | supervise hst => exact h.supervise hc hst
  | spawn i hst => exact h.spawn hc hst
  | stopError => exact h.flags _ _ rfl
  | finished p after error hst hp => exact h.finished hc hst hp error
  | conclude hst =>
    exact h.conclude hc (by rw [hst]; rfl) fun p hp => by rw [hst] at hp; cases hp

/-! ## The other steps -/

omit [DecidableEq O] in
/-- A worker that runs afterwards ran before; if it writes, its agent is this one. -/
theorem Inv.process (h : Inv a) {P P' : Process O} (hp : a.processes[p]? = some P)
    (hop : P'.op = P.op) (hpar : P'.parent = P.parent) (hr : a.runs P' → a.runs P)
    (hw : P'.life = .writing → P'.parent = a.generation) :
    Inv { a with processes := a.processes.set p P' } := by
  refine { h with held := ?held, parents := ?parents, guarded := ?guarded }
  case held =>
    intro q Q hq hQ
    rcases Table.set_cases hq with ⟨rfl, rfl⟩ | ⟨-, hq⟩
    · rw [hop]
      exact h.held q P hp (hr hQ)
    · exact h.held q Q hq hQ
  case parents =>
    intro Q hQ
    rcases List.mem_or_eq_of_mem_set hQ with hQ | rfl
    · exact h.parents Q hQ
    · rw [hpar]
      exact h.parents P (List.mem_of_getElem? hp)
  case guarded =>
    intro Q hQ hlife
    rcases List.mem_or_eq_of_mem_set hQ with hQ | rfl
    · exact h.guarded Q hQ hlife
    · exact hw hlife

/-- The registry grows, in memory and on disk. -/
theorem Inv.tombstone (h : Inv a) (op : O) :
    Inv { a with tombstones := insert op a.tombstones } ∧
      (a.broken = false →
        Inv { a with tombstones := insert op a.tombstones, file := insert op a.tombstones }) := by
  have hw : ∀ K ∈ a.cancels, K.waiter ≠ .over →
      K.op ∈ insert op a.tombstones ∧ K.op ∈ a.file ∧
        (K.waiter = .woken → (a.ops K.op).active = false) := by
    intro K hK hk
    obtain ⟨ht, hf, hwoken⟩ := h.waiting K hK hk
    exact ⟨Finset.mem_insert_of_mem ht, hf, hwoken⟩
  constructor
  · exact { h with
      saved := fun hb => (h.saved hb).trans (Finset.subset_insert op _)
      waiting := hw }
  · intro hb
    exact { h with
      saved := fun _ => Finset.Subset.refl _
      waiting := fun K hK hk => by
        obtain ⟨ht, -, hwoken⟩ := hw K hK hk
        exact ⟨ht, ht, hwoken⟩
      dead := fun op' hop' =>
        ⟨Finset.mem_insert_of_mem (h.saved hb (h.dead op' hop').1), (h.dead op' hop').2⟩ }

/-- A cancellation returns. -/
theorem Inv.confirmed (h : Inv a) {op : O} (hf : op ∈ a.file) (hact : (a.ops op).active = false) :
    Inv { a with confirmed := insert op a.confirmed } :=
  { h with
    dead := fun op' hop' => by
      rcases Finset.mem_insert.mp hop' with rfl | hop'
      · exact ⟨hf, hact⟩
      · exact h.dead op' hop' }

theorem Inv.cancel (h : Inv a) (op : O) (saved : Bool) : Inv (a.cancel op saved) := by
  unfold Agent.cancel
  split
  case isTrue => exact h
  case isFalse hb =>
    simp only
    split
    case isTrue => exact (h.tombstone op).1
    case isFalse =>
      have h1 := (h.tombstone op).2 (Bool.eq_false_of_not_eq_true hb)
      have h2 := h1.flags op { a.ops op with cancel := true } rfl
      split
      case isTrue =>
        refine { h2 with waiting := fun K hK hk => ?_ }
        rcases Table.mem_snoc hK with hK | rfl
        · exact h2.waiting K hK hk
        · exact ⟨Finset.mem_insert_self _ _, Finset.mem_insert_self _ _,
            fun he => Waiter.noConfusion he⟩
      case isFalse hact =>
        split
        case isTrue => exact h2
        case isFalse =>
          refine h2.confirmed (Finset.mem_insert_self _ _) ?_
          rw [setFlags_ops, if_pos rfl]
          exact Bool.eq_false_of_not_eq_true hact

omit [DecidableEq O] in
/-- A cancellation is over. -/
theorem Inv.waiter_over (h : Inv a) (k : ℕ) (K : Cancel O) :
    Inv { a with cancels := a.cancels.set k { K with waiter := .over } } :=
  { h with
    waiting := fun K' hK' hk => by
      rcases List.mem_or_eq_of_mem_set hK' with hK' | rfl
      · exact h.waiting K' hK' hk
      · exact absurd rfl hk }

theorem Inv.confirm (h : Inv a) {k : ℕ} {K : Cancel O} (hK : a.cancels[k]? = some K)
    (hw : K.waiter = .woken) : Inv (a.confirm k K) := by
  unfold Agent.confirm
  simp only
  split
  case isTrue => exact h.waiter_over k K
  case isFalse =>
    obtain ⟨-, hf, hidle⟩ := h.waiting K (List.mem_of_getElem? hK) (by rw [hw]; simp)
    exact (h.waiter_over k K).confirmed hf (hidle hw)

omit [DecidableEq O] in
/-- After a restart no worker runs, and no call or cancellation is under way. -/
theorem Inv.restart (h : Inv a) (readable : Bool) : Inv (a.restart readable) := by
  have hended : ∀ C ∈ (a.restart readable).calls, C.stage = .ended := by
    intro C hC
    obtain ⟨C₀, -, rfl⟩ := List.mem_map.mp hC
    rfl
  have hold : ∀ P ∈ (a.restart readable).processes,
      P.parent ≤ a.generation ∧ P.life ≠ .writing := by
    intro P hP
    obtain ⟨P₀, hP₀, rfl⟩ := List.mem_map.mp hP
    have hle := h.parents P₀ hP₀
    by_cases hw : P₀.life = .writing
    · rw [if_pos hw]
      exact ⟨hle, by simp⟩
    · rw [if_neg hw]
      exact ⟨hle, hw⟩
  constructor
  case held =>
    intro p P hp hr
    obtain ⟨hle, hw⟩ := hold P (List.mem_of_getElem? hp)
    simp only [Agent.runs, Bool.or_eq_true, Bool.and_eq_true, decide_eq_true_eq] at hr
    rcases hr with hr | ⟨-, hr⟩
    · exact absurd hr hw
    · have : P.parent = a.generation + 1 := hr
      omega
  case active =>
    intro c C hC hadm
    rw [hended C (List.mem_of_getElem? hC)] at hadm
    cases hadm
  case unique =>
    intro c c' C C' hC _ hadm
    rw [hended C (List.mem_of_getElem? hC)] at hadm
    cases hadm
  case parents => exact fun P hP => Nat.le_succ_of_le (hold P hP).1
  case guarded => exact fun P hP hw => absurd hw (hold P hP).2
  case saved =>
    intro hb
    cases readable with
    | true => exact Finset.Subset.refl _
    | false => cases hb
  case waiting =>
    intro K hK hk
    obtain ⟨K₀, -, rfl⟩ := List.mem_map.mp hK
    exact absurd rfl hk
  case dead => exact fun op hop => ⟨(h.dead op hop).1, rfl⟩

/-! ## Runs -/

omit [DecidableEq O] in
theorem inv_init : Inv (init : Agent O) := by
  constructor <;> intros <;> simp_all [init]

/-- **The step lemma.** -/
theorem Inv.step (h : Inv a) {e : Act O} (hs : a.step e = some a') : Inv a' := by
  cases e with
  | start op attempts =>
    cases hs
    have hadm : ∀ (c : ℕ) (C : Call O),
        (a.calls ++ [⟨op, attempts, .delayed⟩])[c]? = some C → C.stage.admitted →
          a.calls[c]? = some C := by
      intro c C hC hadm
      rcases Table.append_cases hC with hC | ⟨-, rfl⟩
      · exact hC
      · cases hadm
    exact { h with
      held := fun p P hp hr => by
        obtain ⟨c, C, hc, hC, hCp⟩ := h.held p P hp hr
        exact ⟨c, C, Table.get_append hc, hC, hCp⟩
      active := fun c C hC hCadm => h.active c C (hadm c C hC hCadm) hCadm
      unique := fun c c' C C' hC hC' ha ha' hop =>
        h.unique c c' C C' (hadm c C hC ha) (hadm c' C' hC' ha') ha ha' hop }
  | turn c t =>
    obtain ⟨call, hc, hs⟩ := Option.bind_eq_some_iff.mp hs
    exact h.turn hc hs
  | guarded p =>
    obtain ⟨P, hp, hs⟩ := Option.bind_eq_some_iff.mp hs
    obtain ⟨hb, rfl⟩ := guard_some hs
    obtain ⟨hlife, hpar⟩ := Bool.and_eq_true_iff.mp hb
    exact h.process hp rfl rfl (fun _ => by simp_all [Agent.runs]) fun _ => of_decide_eq_true hpar
  | exit p =>
    obtain ⟨P, hp, rfl⟩ := Option.map_eq_some_iff.mp hs
    exact h.process hp rfl rfl (fun hr => by simp [Agent.runs] at hr) fun hw => by cases hw
  | cancel op saved =>
    cases hs
    exact h.cancel op saved
  | confirm k =>
    obtain ⟨K, hK, hs⟩ := Option.bind_eq_some_iff.mp hs
    obtain ⟨hw, rfl⟩ := guard_some hs
    exact h.confirm hK hw
  | timeout k =>
    obtain ⟨K, hK, rfl⟩ := Option.map_eq_some_iff.mp hs
    exact h.waiter_over k K
  | restart readable =>
    cases hs
    exact h.restart readable

/-- A cancellation that returned stays returned. -/
theorem confirmed_step {e : Act O} (hs : a.step e = some a') : a.confirmed ⊆ a'.confirmed := by
  cases e with
  | start op attempts | restart readable =>
    cases hs
    exact Finset.Subset.refl _
  | turn c t =>
    obtain ⟨call, -, hs⟩ := Option.bind_eq_some_iff.mp hs
    cases turn_cases hs with
    | idle | goto | conclude | stopError => exact Finset.Subset.refl _
    | supervise =>
      unfold Agent.supervise
      simp only
      split <;> exact Finset.Subset.refl _
    | spawn i =>
      unfold Agent.spawn
      simp only
      split <;> exact Finset.Subset.refl _
    | finished p after error =>
      unfold Agent.finished
      simp only
      split <;> exact Finset.Subset.refl _
  | guarded p =>
    obtain ⟨P, -, hs⟩ := Option.bind_eq_some_iff.mp hs
    obtain ⟨-, rfl⟩ := guard_some hs
    exact Finset.Subset.refl _
  | exit p =>
    obtain ⟨P, -, rfl⟩ := Option.map_eq_some_iff.mp hs
    exact Finset.Subset.refl _
  | cancel op saved =>
    cases hs
    unfold Agent.cancel
    simp only
    split_ifs <;> first | exact Finset.Subset.refl _ | exact Finset.subset_insert _ _
  | confirm k =>
    obtain ⟨K, -, hs⟩ := Option.bind_eq_some_iff.mp hs
    obtain ⟨-, rfl⟩ := guard_some hs
    unfold Agent.confirm
    simp only
    split <;> first | exact Finset.Subset.refl _ | exact Finset.subset_insert _ _
  | timeout k =>
    obtain ⟨K, -, rfl⟩ := Option.map_eq_some_iff.mp hs
    exact Finset.Subset.refl _

end Agent

end SparkDeck.Download
