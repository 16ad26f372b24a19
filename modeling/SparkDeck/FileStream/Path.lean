import SparkDeck.Lib.Posix

/-!
# Paths of a file stream

Model of `_validate_file_stream_path` and `_validate_file_stream_link`
(`sparkdeck/virtual_nas.py:528-561`), with what they use of `PurePosixPath` and `posixpath`.

A `PurePosixPath` that is not absolute is the list of its `parts`: what stands between the slashes,
without empty parts and `.`.
-/

namespace SparkDeck.FileStream

open Posix

/-- `PurePosixPath(s).parts` of a path that is not absolute. -/
def parts (s : String) : List String :=
  ((s.toList.splitOn '/').map String.ofList).filter fun p => p ≠ "" && p ≠ "."

/-- `PurePosixPath(s).is_absolute()`. -/
def isAbsolute (s : String) : Bool := s.toList.head? = some '/'

/-- The loop of `posixpath.normpath` for a relative path, with `new_comps` last part first. -/
def normParts : List String → List String → List String
  | acc, [] => acc.reverse
  | acc, p :: ps =>
    if p = ".." then
      match acc with
      | [] => normParts [".."] ps
      | q :: acc' => if q = ".." then normParts (".." :: q :: acc') ps else normParts acc' ps
    else normParts (p :: acc) ps

/-- `PurePosixPath(os.path.normpath(str(path))).parts`. -/
def normpath (path : List String) : List String := normParts [] path

/-- `re.match(r"^[A-Za-z]:", s)`. -/
def hasDrive (s : String) : Bool :=
  match s.toList with
  | c :: ':' :: _ => c.isAlpha
  | _ => false

inductive PathError where
  /-- "file stream contains an unsafe path" -/
  | unsafePath
  /-- "file stream contains an unsafe link" -/
  | unsafeLink
  /-- "file stream link escapes its repository" -/
  | escapes
  deriving DecidableEq

/-- `_validate_file_stream_path`, of a string. -/
def validatePath (name root : String) : Except PathError (List String) :=
  if name = "" || name.toList.contains '\\' then .error .unsafePath
  else
    let path := parts name
    if isAbsolute name || path.any (fun p => p = "" || p = "." || p = "..") || path.head? ≠ some root
    then .error .unsafePath
    else .ok path

/-- `_validate_file_stream_link`, of a string. -/
def validateLink (path : List String) (target root : String) : Except PathError String :=
  if target = "" || target.toList.contains '\\' || hasDrive target then .error .unsafeLink
  else if isAbsolute target then .error .unsafeLink
  else
    let normalized := normpath (path.dropLast ++ parts target)
    if normalized.head? ≠ some root || normalized.contains ".." then .error .escapes
    else .ok target

/-- What the system makes of a path without a leading slash. -/
def comps (path : List String) : List (Comp String) :=
  path.map fun p => if p = ".." then .up else .name p

/-- A path that is accepted names something at or below the root. -/
theorem validatePath_ok {name root : String} {path : List String}
    (h : validatePath name root = .ok path) : path.head? = some root ∧ ".." ∉ path := by
  unfold validatePath at h
  split at h
  case isTrue => cases h
  case isFalse =>
    dsimp only at h
    split at h
    case isTrue => cases h
    case isFalse hno =>
      cases h
      simp only [Bool.or_eq_true, not_or, decide_eq_true_eq, ne_eq, not_not, Bool.not_eq_true,
        List.any_eq_false] at hno
      refine ⟨hno.2, fun hmem => ?_⟩
      exact absurd (hno.1.2 ".." hmem) (by simp)

example : validateLink ["r", "d", "l"] "../../r/x" "r" = .ok "../../r/x" := by decide

example : validateLink ["r", "l"] "../x" "r" = .error .escapes := by decide

end SparkDeck.FileStream
