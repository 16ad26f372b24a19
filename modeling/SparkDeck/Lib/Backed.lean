import SparkDeck.Lib.Effect

/-!
# A value in memory with a file behind it

A program changes the value (`assign`) and writes it (`save`), in this order, or writes a value and
takes it over when that worked (`commit`). A write is atomic: it fails with the file as it was.

`AllOrNothing p s` says of a program and the state it starts from that where it raises, the value is
what it was, and that in any case it ends with the value a restart would load.

* `AllOrNothing.untouched`, `refused`, `changed`, `saved`, `raised`: one rule for each way a program
  ends.
* `AllOrNothing.bind_ok`, `assign_throw`, `assign_save`, `commit`: the rules for its steps.
-/

/-- How a value is read from its file and written to it. -/
structure Backing (M F : Type) where
  load : F → Option M
  store : M → F
  load_store : ∀ m, load (store m) = some m

structure Backed (M F : Type) where
  memory : M
  file : F

namespace Backed

variable {M F ε α β : Type}

def assign (f : M → M) : EStateM ε (Backed M F) Unit := fun s =>
  .ok () { s with memory := f s.memory }

section write

variable (B : Backing M F)

def save (wrote : Bool) (e : ε) : EStateM ε (Backed M F) Unit := fun s =>
  if wrote then .ok () { s with file := B.store s.memory } else .error e s

def commit (m : M) (wrote : Bool) (e : ε) : EStateM ε (Backed M F) Unit := fun s =>
  if wrote then .ok () ⟨m, B.store m⟩ else .error e s

/-- A restart would load what is in memory. -/
def Synced (s : Backed M F) : Prop := B.load s.file = some s.memory

def AllOrNothing (p : EStateM ε (Backed M F) α) (s : Backed M F) : Prop :=
  match p s with
  | .ok _ t => Synced B t
  | .error _ t => t.memory = s.memory ∧ Synced B t

end write

variable {B : Backing M F} {p : EStateM ε (Backed M F) α} {s : Backed M F} {a : α} {e : ε} {m : M}

theorem synced_store : Synced B ⟨m, B.store m⟩ := B.load_store m

theorem AllOrNothing.untouched (h : p s = .ok a s) : AllOrNothing B p s ↔ Synced B s := by
  unfold AllOrNothing
  rw [h]

theorem AllOrNothing.refused (h : p s = .error e s) : AllOrNothing B p s ↔ Synced B s := by
  unfold AllOrNothing
  rw [h]
  exact and_iff_right rfl

theorem AllOrNothing.changed (h : p s = .error e { s with memory := m }) :
    AllOrNothing B p s ↔ Synced B s ∧ m = s.memory := by
  unfold AllOrNothing
  rw [h]
  constructor
  · rintro ⟨rfl, hsynced⟩
    exact ⟨hsynced, rfl⟩
  · rintro ⟨hsynced, rfl⟩
    exact ⟨rfl, hsynced⟩

theorem AllOrNothing.saved (h : p s = .ok a ⟨m, B.store m⟩) : AllOrNothing B p s := by
  unfold AllOrNothing
  rw [h]
  exact synced_store

theorem AllOrNothing.error_iff {t : Backed M F} (h : p s = .error e t) :
    AllOrNothing B p s ↔ t.memory = s.memory ∧ Synced B t := by
  unfold AllOrNothing
  rw [h]

theorem AllOrNothing.raised (h : p s = .error e ⟨m, B.store m⟩) :
    AllOrNothing B p s ↔ m = s.memory := by
  unfold AllOrNothing
  rw [h]
  exact and_iff_left synced_store

/-! ## Programs step by step -/

theorem AllOrNothing.congr {q : EStateM ε (Backed M F) α} (h : p s = q s) :
    AllOrNothing B p s ↔ AllOrNothing B q s := by
  unfold AllOrNothing
  rw [h]

variable {q : EStateM ε (Backed M F) β}

theorem AllOrNothing.bind_ok {b : β} (h : q s = .ok b s) (g : β → EStateM ε (Backed M F) α) :
    AllOrNothing B (q >>= g) s ↔ AllOrNothing B (g b) s := by
  unfold AllOrNothing
  rw [Effect.bind_ok h]

theorem AllOrNothing.bind_error (h : q s = .error e s) (g : β → EStateM ε (Backed M F) α) :
    AllOrNothing B (q >>= g) s ↔ Synced B s :=
  AllOrNothing.refused (Effect.bind_error h)

theorem AllOrNothing.of_pure : AllOrNothing B (pure a : EStateM ε (Backed M F) α) s ↔ Synced B s :=
  AllOrNothing.untouched rfl

theorem AllOrNothing.of_throw :
    AllOrNothing B (throw e : EStateM ε (Backed M F) α) s ↔ Synced B s :=
  AllOrNothing.refused rfl

theorem AllOrNothing.get (g : Backed M F → EStateM ε (Backed M F) α) :
    AllOrNothing B (get >>= g) s ↔ AllOrNothing B (g s) s := Iff.rfl

theorem AllOrNothing.assign_throw (f : M → M) :
    AllOrNothing B (assign f >>= fun _ => (throw e : EStateM ε (Backed M F) α)) s
      ↔ Synced B s ∧ f s.memory = s.memory :=
  AllOrNothing.changed rfl

theorem AllOrNothing.assign_assign (f f' : M → M) (g : Unit → EStateM ε (Backed M F) α) :
    AllOrNothing B (assign f >>= fun _ => assign f' >>= g) s
      ↔ AllOrNothing B (assign (fun m => f' (f m)) >>= g) s := Iff.rfl

variable {g : Unit → EStateM ε (Backed M F) α}

/-- Change and save: the write decides. -/
theorem AllOrNothing.assign_save (f : M → M) (wrote : Bool) (e : ε)
    (hg : ∀ t, ∃ a, g () t = .ok a t) :
    AllOrNothing B (assign f >>= fun _ => save B wrote e >>= g) s
      ↔ wrote ∨ Synced B s ∧ f s.memory = s.memory := by
  cases wrote with
  | false => exact (AllOrNothing.changed rfl).trans (or_iff_right Bool.false_ne_true).symm
  | true =>
    obtain ⟨a, ha⟩ := hg ⟨f s.memory, B.store (f s.memory)⟩
    exact iff_of_true (AllOrNothing.saved ha) (Or.inl rfl)

theorem AllOrNothing.assign_save_end (f : M → M) (wrote : Bool) (e : ε) :
    AllOrNothing B (assign f >>= fun _ => save B wrote e) s
      ↔ wrote ∨ Synced B s ∧ f s.memory = s.memory := by
  cases wrote with
  | false => exact (AllOrNothing.changed rfl).trans (or_iff_right Bool.false_ne_true).symm
  | true => exact iff_of_true (AllOrNothing.saved rfl) (Or.inl rfl)

/-- Write and take over: a write that fails has changed nothing. -/
theorem AllOrNothing.commit (m : M) (wrote : Bool) (e : ε) (hg : ∀ t, ∃ a, g () t = .ok a t) :
    AllOrNothing B (commit B m wrote e >>= g) s ↔ wrote ∨ Synced B s := by
  cases wrote with
  | false => exact (AllOrNothing.refused rfl).trans (or_iff_right Bool.false_ne_true).symm
  | true =>
    obtain ⟨a, ha⟩ := hg ⟨m, B.store m⟩
    exact iff_of_true (AllOrNothing.saved ha) (Or.inl rfl)

end Backed
