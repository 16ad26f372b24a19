import Mathlib.Data.List.Infix

/-!
# File trees with symbolic links

A file system as a map from locations to directories, names of inodes and symbolic links. A location
is the list of names that lead to it, **last name first**: the parent of `n :: l` is `l`, and a
location is below `r` when `r <:+ l`.

`walk` resolves a path: the components of it are taken one after another, and a symbolic link is
replaced by its target. It follows at most as many links as it is given.

* `walk_lax`: what the system finds, resolution by name alone finds at the same place.
* `Disk.put`: everything new is put below an existing directory, where nothing was.
-/

namespace Posix

open Function

variable {N F : Type*}

/-- A component of a path. -/
inductive Comp (N : Type*) where
  | up
  | name (n : N)
  deriving DecidableEq

/-- A target of a symbolic link. -/
structure Target (N : Type*) where
  absolute : Bool
  comps : List (Comp N)
  deriving DecidableEq

inductive Node (N : Type*) where
  | dir
  | file (inode : ℕ)
  | link (target : Target N)
  deriving DecidableEq

/-- Last name first. -/
abbrev Loc (N : Type*) := List N

/-- How a path is resolved. -/
inductive Mode where
  /-- By the system: everything but the end must be a directory. -/
  | kernel
  /-- By name, everything must be there. -/
  | strict
  /-- By name. -/
  | lax
  deriving DecidableEq

inductive Walk (N : Type*) where
  | at (l : Loc N)
  | missing
  | notDir
  | loop

/-- Follow `cs` from `l`, and go on with `follow` at a symbolic link. -/
def walkWith (node : Loc N → Option (Node N)) (mode : Mode)
    (follow : Loc N → List (Comp N) → Walk N) : Loc N → List (Comp N) → Walk N
  | l, [] => .at l
  | l, .up :: cs => walkWith node mode follow l.tail cs
  | l, .name n :: cs =>
    match node (n :: l) with
    | some (.link t) => follow (if t.absolute then [] else l) (t.comps ++ cs)
    | some .dir => walkWith node mode follow (n :: l) cs
    | some (.file _) =>
      if mode = .kernel && !cs.isEmpty then .notDir else walkWith node mode follow (n :: l) cs
    | none => if mode = .lax then walkWith node mode follow (n :: l) cs else .missing

/-- Follow `cs` from `l`, and at most so many symbolic links. -/
def walk (node : Loc N → Option (Node N)) (mode : Mode) : ℕ → Loc N → List (Comp N) → Walk N
  | 0 => walkWith node mode fun _ _ => .loop
  | hops + 1 => walkWith node mode (walk node mode hops)

/-- The components of a path of names, last name first. -/
def names (p : Loc N) : List (Comp N) := (p.map .name).reverse

theorem names_cons (n : N) (p : Loc N) : names (n :: p) = names p ++ [.name n] := by
  simp [names]

section Walk

variable {node : Loc N → Option (Node N)} {mode : Mode} {hops : ℕ} {l l' : Loc N}
  {follow follow' : Loc N → List (Comp N) → Walk N} {cs : List (Comp N)}

theorem walkWith_lax (hf : ∀ l cs, follow l cs = .at l' → follow' l cs = .at l') :
    ∀ (cs : List (Comp N)) (l : Loc N), walkWith node mode follow l cs = .at l' →
      walkWith node .lax follow' l cs = .at l'
  | [], l, h => h
  | .up :: cs, l, h => walkWith_lax hf cs l.tail h
  | .name n :: cs, l, h => by
    rw [walkWith] at h ⊢
    split at h
    case h_1 t ht => simpa only [ht] using hf _ _ h
    case h_2 hd => simpa only [hd] using walkWith_lax hf cs (n :: l) h
    case h_3 hd =>
      split at h
      case isTrue => cases h
      case isFalse => simpa [hd] using walkWith_lax hf cs (n :: l) h
    case h_4 hd =>
      split at h
      case isTrue => simpa [hd] using walkWith_lax hf cs (n :: l) h
      case isFalse => cases h

/-- What is found at all is found by name alone. -/
theorem walk_lax : ∀ {hops : ℕ} {l : Loc N} {cs : List (Comp N)},
    walk node mode hops l cs = .at l' → walk node .lax hops l cs = .at l'
  | 0, _, cs, h => walkWith_lax (fun _ _ hf => hf) cs _ h
  | _ + 1, _, cs, h => walkWith_lax (fun _ _ hf => walk_lax hf) cs _ h

end Walk

/-! ## Disks -/

/-- A file system: what is where, and what the inodes hold. -/
structure Disk (N F : Type*) where
  node : Loc N → Option (Node N)
  data : ℕ → Option F
  /-- From here on, inodes are free. -/
  next : ℕ
  root : node [] = some .dir
  parent : ∀ n l, node (n :: l) ≠ none → node l = some .dir
  used : ∀ l i, node l = some (.file i) → i < next

inductive Errno where
  | exist
  | noEntry
  | notDir
  | loop
  | isDir
  /-- For a reason that is not modelled. -/
  | io
  deriving DecidableEq

namespace Disk

variable [DecidableEq N] (d : Disk N F)

/-- A new entry `n` of the directory `l`. -/
def put (l : Loc N) (n : N) (x : Node N) (hl : d.node l = some .dir) (hn : d.node (n :: l) = none)
    (hx : ∀ i, x = .file i → i < d.next) : Disk N F where
  node := update d.node (n :: l) (some x)
  data := d.data
  next := d.next
  root := by
    rw [update_of_ne (List.cons_ne_nil n l).symm]
    exact d.root
  parent m k h := by
    have hk : k ≠ n :: l := by
      rintro rfl
      by_cases hm : m :: n :: l = n :: l
      · exact absurd (congrArg List.length hm) (by simp)
      · rw [update_of_ne hm] at h
        rw [d.parent m (n :: l) h] at hn
        cases hn
    rw [update_of_ne hk]
    by_cases hm : m :: k = n :: l
    · obtain ⟨-, rfl⟩ := List.cons.inj hm
      exact hl
    · rw [update_of_ne hm] at h
      exact d.parent m k h
  used k i h := by
    by_cases hk : k = n :: l
    · rw [hk, update_self] at h
      exact hx i (Option.some.inj h)
    · rw [update_of_ne hk] at h
      exact d.used k i h

variable {d} {l k : Loc N} {n : N} {x y : Node N} {hl : d.node l = some .dir}
  {hn : d.node (n :: l) = none} {hx : ∀ i, x = .file i → i < d.next}

theorem put_there (hy : d.node k = some y) : (d.put l n x hl hn hx).node k = some y := by
  have hne : k ≠ n :: l := by
    rintro rfl
    cases hn.symm.trans hy
  exact (update_of_ne hne _ _).trans hy

theorem put_cases (hy : (d.put l n x hl hn hx).node k = some y) :
    k = n :: l ∧ y = x ∨ d.node k = some y := by
  by_cases hk : k = n :: l
  · subst hk
    exact Or.inl ⟨rfl, Option.some.inj (hy.symm.trans (update_self _ _ _))⟩
  · exact Or.inr ((update_of_ne hk _ _).symm.trans hy)

variable (d)

/-- The directory that a path leads to. -/
def directory (hops : ℕ) (base : Loc N) (cs : List (Comp N)) :
    Except Errno { l : Loc N // d.node l = some .dir } :=
  match walk d.node .kernel hops base cs with
  | .at l => if h : d.node l = some .dir then .ok ⟨l, h⟩ else .error .notDir
  | .missing => .error .noEntry
  | .notDir => .error .notDir
  | .loop => .error .loop

/-- Where a new entry of a directory goes. -/
def place (hops : ℕ) (base : Loc N) (up : Loc N) (n : N) :
    Except Errno { l : Loc N // d.node l = some .dir ∧ d.node (n :: l) = none } :=
  (d.directory hops base (names up)).bind fun l =>
    if h : d.node (n :: l.1) = none then .ok ⟨l.1, l.2, h⟩ else .error .exist

/-- `mkdir`. -/
def mkdir (hops : ℕ) (base up : Loc N) (n : N) : Except Errno (Disk N F) :=
  (d.place hops base up n).map fun l => d.put l.1 n .dir l.2.1 l.2.2 (by rintro _ ⟨⟩)

/-- `symlink`. -/
def symlink (hops : ℕ) (t : Target N) (base up : Loc N) (n : N) : Except Errno (Disk N F) :=
  (d.place hops base up n).map fun l => d.put l.1 n (.link t) l.2.1 l.2.2 (by rintro _ ⟨⟩)

/-- The file at a location. -/
def fileAt (l : Loc N) : Option { i : ℕ // i < d.next } :=
  match h : d.node l with
  | some (.file i) => some ⟨i, d.used l i h⟩
  | _ => none

/-- `link`, of the file at `src`. -/
def link (hops : ℕ) (src : Loc N) (base up : Loc N) (n : N) : Except Errno (Disk N F) :=
  match d.fileAt src with
  | none => .error (if (d.node src).isSome then .isDir else .noEntry)
  | some i => (d.place hops base up n).map fun l => d.put l.1 n (.file i.1) l.2.1 l.2.2 (by
      rintro _ ⟨⟩
      exact i.2)

/-- One more inode. -/
def alloc (f : F) : Disk N F :=
  { d with
    data := update d.data d.next (some f)
    next := d.next + 1
    used := fun l i h => Nat.lt_succ_of_lt (d.used l i h) }

/-- `open` with `O_CREAT | O_EXCL`: the new inode. -/
def create (hops : ℕ) (f : F) (base up : Loc N) (n : N) : Except Errno (ℕ × Disk N F) :=
  (d.place hops base up n).map fun l =>
    (d.next, (d.alloc f).put l.1 n (.file d.next) l.2.1 l.2.2 (by
      rintro _ ⟨⟩
      exact Nat.lt_succ_self d.next))

/-- What an inode holds is changed. -/
def modify (i : ℕ) (g : F → F) : Disk N F :=
  { d with data := update d.data i ((d.data i).map g) }

/-- `stat`: what a path leads to. -/
def stat (hops : ℕ) (base : Loc N) (cs : List (Comp N)) : Except Errno (Loc N × Node N) :=
  match walk d.node .kernel hops base cs with
  | .at l => match d.node l with
    | some x => .ok (l, x)
    | none => .error .noEntry
  | .missing => .error .noEntry
  | .notDir => .error .notDir
  | .loop => .error .loop

/-- `lstat`: what a path names, a link not followed. -/
def lstat (hops : ℕ) (base up : Loc N) (n : N) : Except Errno (Node N) :=
  (d.directory hops base (names up)).bind fun l =>
    match d.node (n :: l.1) with
    | some x => .ok x
    | none => .error .noEntry

end Disk

end Posix
