import Mathlib.Data.List.Basic

/-!
# The reader of a file stream

Model of `_AsyncFileStreamReader` (`sparkdeck/virtual_nas.py:583-625`). The chunks of a request body
come one after another; each is bytes or not, and the iterator may raise. What is read depends on
the bytes alone, and not on where they are cut (`readexactly_eq`).
-/

namespace SparkDeck.FileStream

abbrev Bytes := List UInt8

/-- What the iterator yields. -/
inductive Chunk where
  | data (b : Bytes)
  /-- Something that is not bytes. -/
  | other
  /-- It raises. -/
  | raises
  deriving DecidableEq

inductive ReadError where
  /-- "file stream ended unexpectedly" -/
  | ended
  /-- "file stream yielded non-bytes data" -/
  | notBytes
  /-- "file stream contains trailing data" -/
  | trailing
  /-- The iterator raised. -/
  | source
  deriving DecidableEq

structure Reader where
  chunks : List Chunk
  buffer : Bytes
  received : ℕ
  deriving DecidableEq

namespace Reader

/-- A reader at the start of a stream. -/
def new (chunks : List Chunk) : Reader := ⟨chunks, [], 0⟩

/-- The loop of `readexactly`. -/
def fill (size : ℕ) : List Chunk → Bytes → ℕ → Except ReadError Reader
  | [], buffer, received =>
    if size ≤ buffer.length then .ok ⟨[], buffer, received⟩ else .error .ended
  | c :: cs, buffer, received =>
    if size ≤ buffer.length then .ok ⟨c :: cs, buffer, received⟩
    else match c with
      | .data b => fill size cs (buffer ++ b) (received + b.length)
      | .other => .error .notBytes
      | .raises => .error .source

/-- `readexactly`. -/
def readexactly (size : ℕ) (r : Reader) : Except ReadError (Bytes × Reader) :=
  (fill size r.chunks r.buffer r.received).map fun r =>
    (r.buffer.take size, { r with buffer := r.buffer.drop size })

/-- The loop of `require_eof`. -/
def drain : List Chunk → Except ReadError Unit
  | [] => .ok ()
  | .data b :: cs => if b = [] then drain cs else .error .trailing
  | .other :: _ => .error .notBytes
  | .raises :: _ => .error .source

/-- `require_eof`. -/
def requireEof (r : Reader) : Except ReadError Unit :=
  if r.buffer ≠ [] then .error .trailing else drain r.chunks

/-! ## What is read does not depend on the chunks -/

/-- What ends a stream of chunks: nothing, or the first chunk that is not bytes. -/
def ending : List Chunk → Option ReadError
  | [] => none
  | .data _ :: cs => ending cs
  | .other :: _ => some .notBytes
  | .raises :: _ => some .source

/-- The bytes before that. -/
def bytesOf : List Chunk → Bytes
  | .data b :: cs => b ++ bytesOf cs
  | _ => []

/-- What is still to be read. -/
def rest (r : Reader) : Bytes := r.buffer ++ bytesOf r.chunks

theorem fill_spec (size : ℕ) : ∀ (cs : List Chunk) (buffer : Bytes) (received : ℕ),
    (size ≤ (buffer ++ bytesOf cs).length → ∃ r, fill size cs buffer received = .ok r ∧
      r.rest = buffer ++ bytesOf cs ∧ ending r.chunks = ending cs ∧ size ≤ r.buffer.length ∧
      r.received + buffer.length = received + r.buffer.length) ∧
    ((buffer ++ bytesOf cs).length < size →
      fill size cs buffer received = .error ((ending cs).getD .ended))
  | [], buffer, received => by
    simp only [bytesOf, List.append_nil, fill, ending]
    constructor
    · intro h
      exact ⟨⟨[], buffer, received⟩, if_pos h, List.append_nil _, rfl, h, rfl⟩
    · intro h
      exact if_neg (Nat.not_le.mpr h)
  | c :: cs, buffer, received => by
    by_cases hsize : size ≤ buffer.length
    · constructor
      · intro _
        exact ⟨⟨c :: cs, buffer, received⟩, if_pos hsize, rfl, rfl, hsize, rfl⟩
      · intro h
        rw [List.length_append] at h
        omega
    · cases c with
      | data b =>
        obtain ⟨hok, herr⟩ := fill_spec size cs (buffer ++ b) (received + b.length)
        have hf : fill size (.data b :: cs) buffer received =
            fill size cs (buffer ++ b) (received + b.length) := if_neg hsize
        rw [hf, bytesOf, ← List.append_assoc]
        refine ⟨fun h => ?_, herr⟩
        obtain ⟨r, hr, hrest, hend, hlen, hrec⟩ := hok h
        rw [List.length_append] at hrec
        exact ⟨r, hr, hrest, hend, hlen, by omega⟩
      | other | raises =>
        simp only [bytesOf, List.append_nil, ending]
        exact ⟨fun h => absurd h hsize, fun _ => if_neg hsize⟩

/-- **`readexactly` reads the bytes**, however they are cut: the next ones if there are enough, and
else it raises what ends the stream. -/
theorem readexactly_ok {size : ℕ} {r : Reader} (h : size ≤ r.rest.length) :
    ∃ r', r.readexactly size = .ok (r.rest.take size, r') ∧ r'.rest = r.rest.drop size ∧
      ending r'.chunks = ending r.chunks ∧ r'.received + r.buffer.length =
        r.received + r'.buffer.length + size := by
  obtain ⟨r', hr, hrest, hend, hlen, hrec⟩ := (fill_spec size r.chunks r.buffer r.received).1 h
  change r'.rest = r.rest at hrest
  refine ⟨{ r' with buffer := r'.buffer.drop size }, ?_, ?_, hend, ?_⟩
  · rw [readexactly, hr]
    simp only [Except.map, Except.ok.injEq, Prod.mk.injEq, and_true]
    rw [← hrest, rest, List.take_append_of_le_length hlen]
  · rw [← hrest, rest, rest, List.drop_append_of_le_length hlen]
  · simp only [List.length_drop]
    omega

theorem readexactly_error {size : ℕ} {r : Reader} (h : r.rest.length < size) :
    r.readexactly size = .error ((ending r.chunks).getD .ended) := by
  rw [readexactly, (fill_spec size r.chunks r.buffer r.received).2 h]
  rfl

end Reader

end SparkDeck.FileStream
