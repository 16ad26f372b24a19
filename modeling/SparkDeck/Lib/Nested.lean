import Mathlib.Data.List.Basic

/-!
# Nested asynchronous streams

A stream that reads a stream that reads a stream: a tower of frames, outermost first, in which the
frame after a frame is the one it reads. A frame unwinds when its body is left for any reason, and
its `finally` closes the frame it reads before the frame is over. A frame closed before its body has
begun has no `finally` to run.

The modes are how a frame's body gets its turns:

* `generator`: a generator, whose body begins at its first pull;
* `relay`: a generator whose body starts a task at its first pull, which reads the next frame; the
  task may be cancelled before it has had a turn;
* `eager`: an object with a task from the beginning, whose close does the task's work if the task
  never had a turn;
* `source`: the innermost stream.

`Sealed t` says that a frame that is over leaves nothing open behind it. It is kept by every act
except one: a frame that ends without unwinding (`abandons`) while what it reads is open.

* `step_sealed`: the step lemma.
* `Sealed.over_of_le`, `Sealed.all_over`: what is behind a frame that is over.
-/

namespace Nested

inductive Mode where
  | generator
  | relay
  | eager
  | source
  deriving DecidableEq

inductive Status where
  /-- Not one line of the body has run. -/
  | fresh
  /-- The generator of a relay has begun, its task has not. -/
  | spawned
  | live
  /-- In its `finally`. -/
  | closing
  | over
  deriving DecidableEq

structure Frame (K : Type*) where
  kind : K
  status : Status

/-- Frames, outermost first. -/
abbrev Tower (K : Type*) := List (Frame K)

variable {K : Type*}

def Frame.isOver (f : Frame K) : Bool := f.status = .over

namespace Tower

/-- What frame `i` reads is over; the source reads nothing. -/
def innerOver (t : Tower K) (i : ℕ) : Bool := t[i + 1]?.all Frame.isOver

/-- Frame `i` is pulled by the frame around it; the outermost is pulled from outside. -/
def pulled (t : Tower K) : ℕ → Bool
  | 0 => true
  | i + 1 => t[i]?.any (·.status = .live)

/-- Frame `i` is closed by the frame around it; the outermost is closed from outside. -/
def asked (t : Tower K) : ℕ → Bool
  | 0 => true
  | i + 1 => t[i]?.any (·.status = .closing)

end Tower

/-- What happens to frame `i`. -/
inductive Act where
  /-- Its body, or its task, gets its first turn. -/
  | start (i : ℕ)
  /-- Its body is left: what it reads ended or failed, or a cancellation arrived. -/
  | leave (i : ℕ)
  /-- `aclose()` is called on it. -/
  | close (i : ℕ)
  /-- Its `finally` ends, after what it reads is over. -/
  | finish (i : ℕ)
  /-- A cancellation ends a relay's wait for its task. -/
  | cut (i : ℕ)

def Act.index : Act → ℕ
  | .start i | .leave i | .close i | .finish i | .cut i => i

variable (mode : K → Mode)

/-- What the act makes of frame `f`, the `i`-th of `t`. -/
def next (t : Tower K) (f : Frame K) : Act → Option Status
  | .start i =>
    match mode f.kind, f.status with
    | .generator, .fresh => if t.pulled i then some .live else none
    | .relay, .fresh => if t.pulled i then some .spawned else none
    | .relay, .spawned => some .live
    | .eager, .fresh => some .live
    | _, _ => none
  | .leave _ =>
    match f.status with
    | .live => some .closing
    | .spawned => some .over
    | _ => none
  | .close i =>
    if t.asked i then
      match f.status with
      | .fresh => if mode f.kind = .eager then some .closing else some .over
      | .spawned => some .over
      | .live => some .closing
      | _ => none
    else none
  | .finish i => if f.status = .closing && t.innerOver i then some .over else none
  | .cut _ => if mode f.kind = .relay && f.status = .closing then some .over else none

def step (t : Tower K) (a : Act) : Option (Tower K) :=
  t[a.index]?.bind fun f =>
    (next mode t f a).map fun st => t.set a.index { f with status := st }

/-- The act ends frame `f` and its `finally` does not close what it reads. -/
def abandons (f : Frame K) : Act → Bool
  | .close _ => (f.status = .fresh && mode f.kind != .eager) || f.status = .spawned
  | .leave _ => f.status = .spawned
  | .cut _ => true
  | _ => false

/-- A frame ends without unwinding only when what it reads is over. -/
def Orderly (t : Tower K) (a : Act) : Prop :=
  ∀ f, t[a.index]? = some f → abandons mode f a → t.innerOver a.index

instance (t : Tower K) (a : Act) : Decidable (Orderly mode t a) :=
  match h : t[a.index]? with
  | none => isTrue fun f hf => by rw [h] at hf; cases hf
  | some f =>
    decidable_of_iff (abandons mode f a → t.innerOver a.index) (by simp [Orderly, h])

variable {mode} {t t' : Tower K} {a : Act} {f g : Frame K} {i j : ℕ}

/-! ## Steps -/

theorem step_cases (h : step mode t a = some t') :
    ∃ f st, t[a.index]? = some f ∧ next mode t f a = some st ∧
      t' = t.set a.index { f with status := st } := by
  obtain ⟨f, hf, h⟩ := Option.bind_eq_some_iff.mp h
  obtain ⟨st, hst, h⟩ := Option.map_eq_some_iff.mp h
  exact ⟨f, st, hf, hst, h.symm⟩

/-- A frame that is over has no next status. -/
theorem next_ne_over {st : Status} (h : next mode t f a = some st) : f.status ≠ .over := by
  intro ho
  cases a <;> simp [next, ho] at h

/-- A frame that ends has unwound, with what it reads over, or is abandoned. -/
theorem next_over (h : next mode t f a = some .over) :
    (a = .finish a.index ∧ t.innerOver a.index) ∨ abandons mode f a := by
  cases a with
  | start i =>
    simp only [next] at h
    split at h <;> simp at h
  | leave i =>
    simp only [next] at h
    split at h
    case h_1 => simp at h
    case h_2 hs => exact Or.inr (by simp [abandons, hs])
    case h_3 => simp at h
  | close i =>
    simp only [next] at h
    split at h
    case isFalse => simp at h
    case isTrue =>
      split at h
      case h_1 hs =>
        split at h
        case isTrue => simp at h
        case isFalse hm => exact Or.inr (by simp [abandons, hs, hm])
      case h_2 hs => exact Or.inr (by simp [abandons, hs])
      case h_3 => simp at h
      case h_4 => simp at h
  | finish i =>
    simp only [next] at h
    split at h
    case isTrue hc => exact Or.inl ⟨rfl, (Bool.and_eq_true_iff.mp hc).2⟩
    case isFalse => simp at h
  | cut i => exact Or.inr rfl

/-- A step keeps the kinds. -/
theorem step_kinds (h : step mode t a = some t') : t'.map (·.kind) = t.map (·.kind) := by
  obtain ⟨f, st, hf, -, rfl⟩ := step_cases h
  refine List.ext_getElem? fun k => ?_
  rw [List.getElem?_map, List.getElem?_map, List.getElem?_set]
  split
  case isTrue hk =>
    subst hk
    rw [hf]
    obtain ⟨hlt, -⟩ := List.getElem?_eq_some_iff.mp hf
    simp [hlt]
  case isFalse => rfl

/-! ## Sealed towers -/

/-- A frame that is over leaves nothing open behind it. -/
def Sealed (t : Tower K) : Prop := ∀ i f, t[i]? = some f → f.isOver → t.innerOver i

theorem innerOver_iff : t.innerOver i ↔ ∀ g, t[i + 1]? = some g → g.isOver := by
  unfold Tower.innerOver
  cases t[i + 1]? with
  | none => simp
  | some g => simp

theorem sealed_nil : Sealed ([] : Tower K) := by
  intro i f hf
  simp at hf

theorem Sealed.cons (h : Sealed t) (hf : f.isOver = false) : Sealed (f :: t) := by
  intro i g hg ho
  cases i with
  | zero =>
    obtain rfl : f = g := by simpa using hg
    rw [hf] at ho
    cases ho
  | succ i => exact h i g (by simpa using hg) ho

theorem sealed_of_open (h : ∀ f ∈ t, f.isOver = false) : Sealed t := by
  intro i f hf ho
  rw [h f (List.mem_of_getElem? hf)] at ho
  cases ho

/-- Everything behind a frame that is over is over. -/
theorem Sealed.over_of_le (h : Sealed t) (hf : t[i]? = some f) (ho : f.isOver) (hij : i ≤ j)
    (hg : t[j]? = some g) : g.isOver := by
  induction hij generalizing g with
  | refl =>
    cases hf.symm.trans hg
    exact ho
  | @step j hij ih =>
    obtain ⟨hlt, -⟩ := List.getElem?_eq_some_iff.mp hg
    have hj : t[j]? = some (t.get ⟨j, Nat.lt_of_succ_lt hlt⟩) := List.getElem?_eq_getElem _
    exact innerOver_iff.mp (h j _ hj (ih hj)) g hg

/-- The whole tower is over with its outermost frame. -/
theorem Sealed.all_over (h : Sealed (f :: t)) (ho : f.isOver) :
    ∀ g ∈ f :: t, g.isOver := by
  intro g hg
  obtain ⟨j, hj⟩ := List.mem_iff_getElem?.mp hg
  exact h.over_of_le (i := 0) rfl ho (Nat.zero_le j) hj

/-- The innermost frame is over with any other. -/
theorem Sealed.last_over (h : Sealed t) (hf : f ∈ t) (ho : f.isOver)
    (hg : t.getLast? = some g) : g.isOver := by
  obtain ⟨i, hi⟩ := List.mem_iff_getElem?.mp hf
  rw [List.getLast?_eq_getElem?] at hg
  obtain ⟨hlt, -⟩ := List.getElem?_eq_some_iff.mp hi
  exact h.over_of_le hi ho (by omega) hg

/-- **The step lemma.** -/
theorem step_sealed (h : Sealed t) (ha : Orderly mode t a) (hs : step mode t a = some t') :
    Sealed t' := by
  obtain ⟨f, st, hf, hst, rfl⟩ := step_cases hs
  have hopen : f.isOver = false := by
    simpa [Frame.isOver] using next_ne_over hst
  have hlt := (List.getElem?_eq_some_iff.mp hf).1
  intro i g hg ho
  refine innerOver_iff.mpr fun k hk => ?_
  rw [List.getElem?_set] at hg hk
  by_cases hi : a.index = i
  · -- the frame that moved: what it reads is as before
    subst hi
    rw [if_neg (by omega)] at hk
    rw [if_pos rfl, if_pos hlt] at hg
    cases hg
    have hin : t.innerOver a.index := by
      have hov : st = .over := by simpa [Frame.isOver] using ho
      subst hov
      rcases next_over hst with ⟨-, hin⟩ | hab
      · exact hin
      · exact ha f hf hab
    exact innerOver_iff.mp hin k hk
  · rw [if_neg hi] at hg
    by_cases hk' : a.index = i + 1
    · -- the frame around the one that moved was open, for that one was open
      have := innerOver_iff.mp (h i g hg ho) f (by rw [← hk']; exact hf)
      rw [hopen] at this
      cases this
    · rw [if_neg hk'] at hk
      exact innerOver_iff.mp (h i g hg ho) k hk

end Nested
