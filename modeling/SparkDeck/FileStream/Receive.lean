import Mathlib.Algebra.Group.Nat.Defs
import SparkDeck.Lib.Effect
import SparkDeck.FileStream.Path
import SparkDeck.FileStream.Reader

/-!
# Receiving a file stream

Model of `_receive_file_stream` and `_create_file_stream_link`
(`sparkdeck/virtual_nas.py:520-525`, `:562-580`, `:2879-3013`), with what they use of `pathlib` and
`os`.

The staging directory is given by its real location. Paths below it are written last name first.
Every call to the system may fail for a reason of its own (`Sys.fails`), and the cancel event may be
set at any check (`Sys.cancel`); both are told by the number of the call. `json.loads` and SHA-256
are `Sys.loads` and `Sys.sha256`.
-/

namespace SparkDeck.FileStream

open Posix

/-- `FILE_STREAM_CHUNK_BYTES`. -/
def chunkBytes : ℕ := 4 * 1024 * 1024

/-- `_FILE_STREAM_HEADER_MAX_BYTES`. -/
def headerMaxBytes : ℕ := 1024 * 1024

/-- `_FILE_STREAM_METADATA_MAX_BYTES`. -/
def metadataMaxBytes : ℕ := 32 * 1024 * 1024

/-- `_FILE_STREAM_MAX_ENTRIES`. -/
def maxEntries : ℕ := 4096

/-- `_FILE_STREAM_MAGIC`, `b"SPARKDECK-FILE-STREAM/1\n"`. -/
def magic : Bytes :=
  [83, 80, 65, 82, 75, 68, 69, 67, 75, 45, 70, 73, 76, 69, 45, 83, 84, 82, 69, 65, 77, 47, 49,
    10]

/-- `hashlib.sha256().digest_size`. -/
def digestSize : ℕ := 32

/-- `struct.unpack(">I", b)[0]`. -/
def unpack (b : Bytes) : ℕ := b.foldl (fun n x => n * 256 + x.toNat) 0

/-- `struct.pack(">I", n)`. -/
def pack (n : ℕ) : Bytes :=
  [n / 256 ^ 3, n / 256 ^ 2, n / 256, n].map UInt8.ofNat

/-- A value in a header. -/
inductive Json where
  | str (s : String)
  | int (n : ℤ)
  | bool (b : Bool)
  /-- A list or a dict, which no set can hold. -/
  | container
  | other
  deriving DecidableEq

/-- What `json.loads` makes of a header. -/
inductive Loaded where
  | invalid
  | notDict
  | dict (items : List (String × Json))

structure FileData where
  bytes : Bytes
  mode : ℕ

structure Sys where
  /-- How many symbolic links the system follows in a path. -/
  hops : ℕ
  /-- How many `resolve` follows. -/
  deep : ℕ
  fails : ℕ → Bool
  cancel : ℕ → Bool
  loads : Bytes → Loaded
  sha256 : Bytes → Bytes

structure St where
  src : Reader
  disk : Disk String FileData
  /-- Calls so far. -/
  tick : ℕ

inductive Err where
  | read (e : ReadError)
  | path (e : PathError)
  | os (e : Errno)
  | canceled
  /-- "model transfer is not a SparkDeck file stream" -/
  | notFileStream
  /-- "file stream metadata is too large" -/
  | headerTooLarge
  /-- "file stream contains too much metadata" -/
  | tooMuchMetadata
  /-- "file stream metadata is invalid" -/
  | metadataInvalid
  /-- A `TypeError`. -/
  | unhashable
  /-- "file stream contains a duplicate path" -/
  | duplicatePath
  /-- "file stream repository root cannot be a link" -/
  | rootLink
  /-- "file stream file size is invalid" -/
  | sizeInvalid
  /-- "file stream file mode is invalid" -/
  | modeInvalid
  /-- "file stream exceeds the admitted transfer size" -/
  | tooLarge
  /-- "file stream repository root cannot be a file" -/
  | rootFile
  /-- "model file failed transfer integrity verification" -/
  | integrity
  /-- "file stream byte count does not match expected size" -/
  | byteCount
  /-- "model file stream is empty" -/
  | empty
  /-- "file stream link conflicts with another entry" -/
  | conflict
  /-- "target filesystem cannot create the model directory link" -/
  | directoryLink
  deriving DecidableEq

abbrev M := EStateM Err St

/-- `if c: raise e`. -/
def raiseIf (c : Prop) [Decidable c] (e : Err) : M Unit := if c then throw e else pure ()

section System

variable (sys : Sys) (stage : Loc String)

/-- A call to the system. -/
def call {α : Type} (op : Disk String FileData → Except Errno (α × Disk String FileData)) : M α :=
  fun s =>
    if sys.fails s.tick then .error (.os .io) { s with tick := s.tick + 1 }
    else match op s.disk with
      | .ok (a, d) => .ok a { s with disk := d, tick := s.tick + 1 }
      | .error e => .error (.os e) { s with tick := s.tick + 1 }

/-- A call that changes nothing. -/
def query {α : Type} (op : Disk String FileData → Except Errno α) : M α :=
  call sys fun d => (op d).map fun a => (a, d)

/-- `if cancel is not None and cancel.is_set(): raise TransferCanceled()`. -/
def checkCancel : M Unit := fun s =>
  if sys.cancel s.tick then .error .canceled { s with tick := s.tick + 1 }
  else .ok () { s with tick := s.tick + 1 }

def readexactly (size : ℕ) : M Bytes := fun s =>
  match s.src.readexactly size with
  | .ok (b, r) => .ok b { s with src := r }
  | .error e => .error (.read e) s

def requireEof : M Unit := fun s =>
  match s.src.requireEof with
  | .ok () => .ok () s
  | .error e => .error (.read e) s

/-- `reader.received`. -/
def received : M ℕ := fun s => .ok s.src.received s

/-- `path.is_dir()`. -/
def isDir (p : Loc String) : M Bool :=
  query sys fun d => match d.stat sys.hops stage (names p) with
    | .ok (_, .dir) => .ok true
    | _ => .ok false

/-- `path.exists()`. -/
def existsAt (p : Loc String) : M Bool :=
  query sys fun d => match d.stat sys.hops stage (names p) with
    | .ok _ => .ok true
    | .error _ => .ok false

/-- `path.is_symlink()`. -/
def isSymlink (up : Loc String) (n : String) : M Bool :=
  query sys fun d => match d.lstat sys.hops stage up n with
    | .ok (.link _) => .ok true
    | _ => .ok false

/-- `os.mkdir(path)`. -/
def osMkdir (up : Loc String) (n : String) : M Unit :=
  call sys fun d => (d.mkdir sys.hops stage up n).map fun d => ((), d)

/-- `Path.mkdir`, where `os.mkdir` raised `e`. -/
def unlessDir (existOk : Bool) (p : Loc String) (e : Err) : M Unit :=
  if existOk then do
    let dir ← isDir sys stage p
    if dir then pure () else throw e
  else throw e

/-- `path.mkdir(parents=True, exist_ok=exist_ok)`. -/
def mkdirParents : Loc String → Bool → M Unit
  | [], existOk => if existOk then pure () else throw (.os .exist)
  | n :: up, existOk =>
    tryCatch (osMkdir sys stage up n) fun e =>
      if e = .os .noEntry then do
        mkdirParents up true
        tryCatch (osMkdir sys stage up n) fun e =>
          if e = .os .noEntry then throw e else unlessDir sys stage existOk (n :: up) e
      else unlessDir sys stage existOk (n :: up) e

/-- `_open_file_stream_destination`: the inode that is written. -/
def openDestination (up : Loc String) (n : String) : M ℕ :=
  call sys fun d => d.create sys.hops ⟨[], 0o600⟩ stage up n

/-- `output.write`. -/
def write (inode : ℕ) (data : Bytes) : M Unit :=
  call sys fun d => .ok ((), d.modify inode fun f => { f with bytes := f.bytes ++ data })

/-- `output.flush` and `os.fsync`, or `output.close`. -/
def sync : M Unit := call sys fun d => .ok ((), d)

/-- `os.chmod`. -/
def chmod (p : Loc String) (mode : ℕ) : M Unit :=
  call sys fun d => match d.stat sys.hops stage (names p) with
    | .ok (_, .file i) => .ok ((), d.modify i fun f => { f with mode })
    | .ok _ => .ok ((), d)
    | .error e => .error e

/-- `path.resolve(strict=True)`. -/
def resolve (cs : List (Comp String)) : M (Loc String) :=
  query sys fun d => match walk d.node .strict sys.deep stage cs with
    | .at l => .ok l
    | .missing => .error .noEntry
    | .notDir => .error .notDir
    | .loop => .error .loop

/-- `os.link`. -/
def osLink (src : Loc String) (up : Loc String) (n : String) : M Unit :=
  call sys fun d => (d.link sys.hops src stage up n).map fun d => ((), d)

/-- `os.symlink`. -/
def osSymlink (target : String) (up : Loc String) (n : String) : M Unit :=
  call sys fun d =>
    (d.symlink sys.hops ⟨false, comps (parts target)⟩ stage up n).map fun d => ((), d)

/-- `target_path.relative_to(stage.resolve(strict=True))` raises nothing. -/
def isRelativeTo (l : Loc String) : Bool := stage.isSuffixOf l

/-! ## Links -/

inductive LinkType where
  | symlink
  | hardlink
  deriving DecidableEq

structure Link where
  /-- `destination`, last name first. -/
  destination : Loc String
  target : String
  type : LinkType
  deriving DecidableEq

/-- `_create_file_stream_link`. -/
def createLink (up : Loc String) (n : String) (target : String) : M Unit :=
  tryCatch (osSymlink sys stage target up n) fun e => do
    let targetPath ← resolve sys stage (names up ++ comps (parts target))
    raiseIf (!isRelativeTo stage targetPath) (.path .escapes)
    let isFile ← query sys fun d => match d.node targetPath with
      | some (.file _) => .ok true
      | _ => .ok false
    raiseIf (!isFile) .directoryLink
    tryCatch (osLink sys stage targetPath up n) fun _ => throw e

/-- One round of the loop over the links. -/
def putLink (link : Link) : M Unit :=
  match link.destination with
  | [] => throw (.path .unsafePath)
  | n :: up => do
    mkdirParents sys stage up true
    let found ← existsAt sys stage (n :: up)
    raiseIf found .conflict
    let linked ← isSymlink sys stage up n
    raiseIf linked .conflict
    match link.type with
    | .hardlink => do
      let targetPath ← resolve sys stage (names up ++ comps (parts link.target))
      raiseIf (!isRelativeTo stage targetPath) (.path .escapes)
      osLink sys stage targetPath up n
    | .symlink => createLink sys stage up n link.target

def putLinks : List Link → M Unit
  | [] => pure ()
  | link :: links => do
    putLink sys stage link
    putLinks links

/-! ## Entries -/

/-- `entry.get(key)`. -/
def get (d : List (String × Json)) (key : String) : Option Json :=
  (d.find? fun p => p.1 = key).map (·.2)

/-- `set(entry) == keys`. -/
def keysAre (d : List (String × Json)) (keys : List String) : Bool :=
  d.all (fun p => keys.contains p.1) && keys.all fun k => d.any fun p => p.1 = k

/-- What an entry asks for. -/
inductive Body where
  | directory
  | link (type : LinkType) (target : String)
  | file (size mode : ℕ)

/-- The size and the mode of a file entry. -/
def fileBody (d : List (String × Json)) : Except Err Body :=
  match get d "size" with
  | some (.int size) =>
    if size < 0 then .error .sizeInvalid
    else match (get d "mode").getD (.int 0o600) with
      | .int mode =>
        if mode < 0 || 0o777 < mode then .error .modeInvalid
        else .ok (.file size.toNat mode.toNat)
      | _ => .error .modeInvalid
  | _ => .error .sizeInvalid

/-- The checks of an entry, but for the path. -/
def body (d : List (String × Json)) (path : List String) (root : String) : Except Err Body :=
  let type := get d "type"
  if type = some (.str "directory") && keysAre d ["path", "type"] then .ok .directory
  else if type = some .container then .error .unhashable
  else if (type = some (.str "symlink") || type = some (.str "hardlink")) &&
      keysAre d ["path", "type", "target"] then
    if path.length = 1 then .error .rootLink
    else match get d "target" with
      | some (.str target) => match validateLink path target root with
        | .ok target =>
          .ok (.link (if type = some (.str "hardlink") then .hardlink else .symlink) target)
        | .error e => .error (.path e)
      | _ => .error (.path .unsafeLink)
  else if type = some (.str "file") &&
      (keysAre d ["path", "type", "size"] || keysAre d ["path", "type", "size", "mode"]) then
    fileBody d
  else .error .metadataInvalid

/-- What the loop over the entries keeps. -/
structure Acc where
  seen : List (List String)
  links : List Link
  declaredFileBytes : ℕ
  metadataBytes : ℕ

/-- The loop over the payload of a file; `digest` is what was hashed. -/
def receivePayload (inode : ℕ) : ℕ → ℕ → Bytes → M Bytes
  | 0, _, digest => pure digest
  | fuel + 1, remaining, digest =>
    if remaining = 0 then pure digest
    else do
      checkCancel sys
      let data ← readexactly (min chunkBytes remaining)
      write sys inode data
      receivePayload inode fuel (remaining - data.length) (digest ++ data)

/-- A file, once its entry is checked. -/
def receiveFile (up : Loc String) (n : String) (size mode : ℕ) : M Unit := do
  mkdirParents sys stage up true
  let inode ← openDestination sys stage up n
  let digest ← tryCatch
    (do
      let digest ← receivePayload sys inode size size []
      sync sys
      pure digest)
    fun e => do
      sync sys
      throw e
  sync sys
  let expected ← readexactly digestSize
  raiseIf (sys.sha256 digest ≠ expected) .integrity
  chmod sys stage (n :: up) mode

/-- `_validate_file_stream_path(entry.get("path"), root_name)`. -/
def entryPath (d : List (String × Json)) (root : String) : Except Err (List String) :=
  match get d "path" with
  | some (.str name) => match validatePath name root with
    | .ok path => .ok path
    | .error e => .error (.path e)
  | _ => .error (.path .unsafePath)

/-- The next header, and the entry it holds. -/
def receiveHeader (size : ℕ) (acc : Acc) : M (List (String × Json) × Acc) := do
  raiseIf (headerMaxBytes < size) .headerTooLarge
  let acc := { acc with metadataBytes := acc.metadataBytes + (size + 4) }
  raiseIf (metadataMaxBytes < acc.metadataBytes) .tooMuchMetadata
  let raw ← readexactly size
  match sys.loads raw with
  | .dict entry => pure (entry, acc)
  | .notDict => throw .metadataInvalid
  | .invalid => throw .metadataInvalid

/-- One round of the loop over the entries, with the size of the header read. -/
def receiveEntry (root : String) (maxFileBytes : Option ℕ) (size : ℕ) (acc : Acc) : M Acc := do
  let (entry, acc) ← receiveHeader sys size acc
  match entryPath entry root with
  | .error e => throw e
  | .ok path => do
    raiseIf (path ∈ acc.seen) .duplicatePath
    let acc := { acc with seen := acc.seen ++ [path] }
    match body entry path root, path.reverse with
    | .error e, _ => throw e
    | .ok _, [] => throw (.path .unsafePath)
    | .ok .directory, n :: up => do
      mkdirParents sys stage (n :: up) false
      pure acc
    | .ok (.link type target), n :: up =>
      pure { acc with links := acc.links ++ [⟨n :: up, target, type⟩] }
    | .ok (.file size mode), n :: up => do
      let acc := { acc with declaredFileBytes := acc.declaredFileBytes + size }
      raiseIf (maxFileBytes.any (· < acc.declaredFileBytes)) .tooLarge
      raiseIf (up = []) .rootFile
      receiveFile sys stage up n size mode
      pure acc

/-- The size of the next header. -/
def nextHeader : M ℕ := do
  checkCancel sys
  let raw ← readexactly 4
  pure (unpack raw)

/-- The loop over the entries: so many may still come. -/
def receiveEntries (root : String) (maxFileBytes : Option ℕ) : ℕ → Acc → M Acc
  | 0, acc => do
    let size ← nextHeader sys
    if size = 0 then pure acc
    else if headerMaxBytes < size then throw .headerTooLarge
    else throw .tooMuchMetadata
  | left + 1, acc => do
    let size ← nextHeader sys
    if size = 0 then pure acc
    else do
      let acc ← receiveEntry sys stage root maxFileBytes size acc
      receiveEntries root maxFileBytes left acc

/-- `_receive_file_stream`. -/
def receiveFileStream (root : String) (expectedBytes maxFileBytes : Option ℕ) : M ℕ := do
  let start ← readexactly magic.length
  raiseIf (start ≠ magic) .notFileStream
  let acc ← receiveEntries sys stage root maxFileBytes maxEntries ⟨[], [], 0, 0⟩
  requireEof
  let count ← received
  raiseIf (expectedBytes.any (· ≠ count)) .byteCount
  raiseIf (acc.seen = []) .empty
  checkCancel sys
  putLinks sys stage acc.links
  pure count

end System

end SparkDeck.FileStream
