import SparkDeck.Lib.Lossy
import SparkDeck.Lib.Transition
import SparkDeck.Lib.Utf8
import Mathlib.Data.Int.Notation

/-!
# Reading a log of llama-server piece by piece

Model of the reading part of `get_llama_server_logs` (`manager.py:22396-22435`). The file grows at
any time: `append`, and `grown` between the `stat` of a read and the read itself. Every read passes
the `next_offset` of the one before it as `since`. Which file is read is left out, and so are the
fields of the answer that describe the process.

* `logs_whole`: in runs whose steps meet `Plain` the texts are the decoding of the file up to
  `next_offset`, and all of it once a read at its end is complete; offsets never go back, and
  enough reads of a file that does not grow are complete.
* `character_lost`: a character whose first byte is the last of the file at one read is lost. The
  decoder is told that the text ends (`final=at_eof`), so it gives that byte up, where away from
  the end it gives the byte back.
-/

namespace SparkDeck.Llama

open Transition Lossy

/-- `codecs.getincrementaldecoder("utf-8")(errors="replace")` -/
def utf8 : Code UInt8 Char where
  whole l := (l.toByteArray.utf8DecodeChar? 0).filter fun c => c.utf8Size = l.length
  start := Utf8.truncated
  bad := '\uFFFD'

/-- The bytes a read gets. -/
def content (file : List UInt8) (offset : ℕ) (limit : ℤ) : List UInt8 :=
  (file.drop offset).take
    (max 4096 (min (1024 * 1024) (if limit = 0 then 262144 else limit))).toNat

structure Answer where
  text : List Char
  nextOffset : ℕ
  complete : Bool

/-- The part of `get_llama_server_logs` after `size = path.stat().st_size`. -/
def getLlamaServerLogs (size : ℕ) (file : List UInt8) (since : ℕ) (limit : ℤ) : Answer :=
  let offset := if size < since then 0 else since
  let content := content file offset limit
  let next := offset + content.length
  if size ≤ next then ⟨utf8.decode content, next, true⟩
  else
    let next := next - (utf8.run content).2.length
    ⟨(utf8.run content).1, next, decide (size ≤ next)⟩

structure State where
  file : List UInt8
  /-- `next_offset` of the last read. -/
  next : ℕ
  /-- The texts of the reads. -/
  text : List Char
  /-- The last read was at the present length, and complete. -/
  complete : Bool
  deriving DecidableEq

inductive Act where
  | append (bytes : List UInt8)
  | read (grown : List UInt8) (limit : ℤ)

def State.append (s : State) (bytes : List UInt8) : State :=
  { s with file := s.file ++ bytes, complete := s.complete && bytes.isEmpty }

/-- A read whose `stat` has given `size`. -/
def State.read (s : State) (size : ℕ) (limit : ℤ) : State :=
  let a := getLlamaServerLogs size s.file s.next limit
  { s with
    next := a.nextOffset
    text := s.text ++ a.text
    complete := a.complete && decide (size = s.file.length) }

def step (s : State) : Act → Option State
  | .append bytes => some (s.append bytes)
  | .read grown limit => some ((s.append grown).read s.file.length limit)

def State.init : State := ⟨[], 0, [], false⟩

/-- Reads of a file that does not grow. -/
def State.reads (s : State) (limits : List ℤ) : State :=
  limits.foldl (fun s limit => s.read s.file.length limit) s

/-- The bytes after the first `n` do not go on with a character that these break off. -/
def Unbroken (file : List UInt8) (n : ℕ) : Prop := utf8.Parted (file.take n) (file.drop n)

/-- What is appended does not go on with a character whose start a read at the end of the file has
given up, and no read that reaches the size taken before it ends inside a character. -/
def Plain (s : State) : Act → Prop
  | .append bytes => Unbroken (s.file ++ bytes) s.next
  | .read grown limit =>
    Unbroken (s.file ++ grown) s.next ∧
      (s.file.length ≤ s.next + (content (s.file ++ grown) s.next limit).length →
        Unbroken (s.file ++ grown) (s.next + (content (s.file ++ grown) s.next limit).length))

/-! ## The texts are the file -/

structure Inv (s : State) : Prop where
  next : s.next ≤ s.file.length
  text : s.text = utf8.decode (s.file.take s.next)
  unbroken : Unbroken s.file s.next
  complete : s.complete → s.next = s.file.length

variable {s t : State} {limit : ℤ}

theorem length_content (file : List UInt8) (offset : ℕ) (limit : ℤ) :
    offset + (content file offset limit).length ≤ max offset file.length ∧
      (offset + (content file offset limit).length < file.length →
        4096 ≤ (content file offset limit).length) := by
  unfold content
  rw [List.length_take, List.length_drop]
  omega

theorem kept_length (l : List UInt8) :
    (utf8.run l).2.length ≤ 3 ∧ (utf8.run l).2.length ≤ l.length := by
  constructor
  · rcases utf8.run_kept l with h | h
    · rw [h]
      exact Nat.zero_le 3
    · change Utf8.truncated _ = true at h
      generalize (utf8.run l).2 = kept at h
      match kept, h with
      | [_], _ | [_, _], _ | [_, _, _], _ => simp
  · obtain ⟨pre, hl, -, -⟩ := utf8.give_back l
    conv_rhs => rw [hl]
    simp

theorem Inv.append (h : Inv s) {bytes : List UInt8} (hc : Unbroken (s.file ++ bytes) s.next) :
    Inv (s.append bytes) where
  next := by
    rw [State.append, List.length_append]
    exact Nat.le_add_right_of_le h.next
  text := by
    change s.text = utf8.decode ((s.file ++ bytes).take s.next)
    rw [List.take_append_of_le_length h.next, ← h.text]
  unbroken := hc
  complete hd := by
    rw [State.append, Bool.and_eq_true, List.isEmpty_iff] at hd
    rw [State.append, hd.2, List.append_nil]
    exact h.complete hd.1

/-- The next piece of the file. -/
theorem Inv.piece (h : Inv s) {pre : List UInt8}
    (hpre : s.file.drop s.next = pre ++ s.file.drop (s.next + pre.length)) :
    s.text ++ utf8.decode pre = utf8.decode (s.file.take (s.next + pre.length)) := by
  have htake : s.file.take (s.next + pre.length) = s.file.take s.next ++ pre := by
    rw [List.take_add, hpre, List.take_left]
  have hpart : utf8.Parted (s.file.take s.next) pre := fun b hb => h.unbroken b (by
    rw [hpre]
    cases pre with
    | nil => cases hb
    | cons => exact hb)
  rw [htake, utf8.decode_append hpart, h.text]

theorem drop_content (file : List UInt8) (offset : ℕ) (limit : ℤ) :
    file.drop offset = content file offset limit ++
      file.drop (offset + (content file offset limit).length) := by
  unfold content
  generalize (max 4096 (min (1024 * 1024) (if limit = 0 then 262144 else limit))).toNat = n
  rw [← List.drop_drop, List.length_take]
  rcases Nat.le_total n (file.drop offset).length with h | h
  · rw [Nat.min_eq_left h, List.take_append_drop]
  · rw [Nat.min_eq_right h, List.take_of_length_le h, List.drop_length, List.append_nil]

theorem Inv.read (h : Inv s) {size : ℕ} (hsize : s.next ≤ size)
    (hc : size ≤ s.next + (content s.file s.next limit).length →
      Unbroken s.file (s.next + (content s.file s.next limit).length)) :
    Inv (s.read size limit) := by
  obtain ⟨hlen, -⟩ := length_content s.file s.next limit
  rw [Nat.max_eq_right h.next] at hlen
  have hdrop := drop_content s.file s.next limit
  unfold State.read getLlamaServerLogs
  simp only [if_neg (Nat.not_lt.mpr hsize)]
  generalize content s.file s.next limit = piece at hlen hdrop hc
  split
  case isTrue hend =>
    refine ⟨hlen, h.piece hdrop, hc hend, fun hd => ?_⟩
    have hlast : size = s.file.length := of_decide_eq_true hd
    exact Nat.le_antisymm hlen (hlast ▸ hend)
  case isFalse hend =>
    obtain ⟨pre, hpre, hdec, hpart⟩ := utf8.give_back piece
    have hnext : s.next + piece.length - (utf8.run piece).2.length = s.next + pre.length := by
      have hsum := congrArg List.length hpre
      rw [List.length_append] at hsum
      omega
    have hle : s.next + pre.length ≤ s.next + piece.length := hnext ▸ Nat.sub_le _ _
    have hrest : s.file.drop (s.next + pre.length) =
        (utf8.run piece).2 ++ s.file.drop (s.next + piece.length) := by
      rw [← List.drop_drop, hdrop]
      generalize s.file.drop (s.next + piece.length) = more
      conv_lhs => rw [hpre, List.append_assoc, List.drop_left]
    have hsplit : s.file.drop s.next = pre ++ s.file.drop (s.next + pre.length) := by
      rw [hrest, ← List.append_assoc, ← hpre]
      exact hdrop
    rw [hnext, ← hdec]
    refine ⟨Nat.le_trans hle hlen, h.piece hsplit, ?_, fun hd => ?_⟩
    · have hparted := h.unbroken
      rw [Unbroken, hsplit] at hparted
      rw [Unbroken, List.take_add, hsplit, List.take_left]
      exact hparted.trans (hrest ▸ hpart _)
    · have hlast := of_decide_eq_true (Bool.and_eq_true_iff.mp hd).1
      exact absurd (Nat.le_trans hlast hle) hend

/-! ## Reads of a file that does not grow -/

theorem next_le (s : State) (size : ℕ) (limit : ℤ) (h : s.next ≤ size) :
    s.next ≤ (s.read size limit).next := by
  unfold State.read getLlamaServerLogs
  simp only [if_neg (Nat.not_lt.mpr h)]
  have hkept := (kept_length (content s.file s.next limit)).2
  split <;> dsimp only <;> omega

/-- A read goes on, or is complete. -/
theorem read_advances (s : State) (limit : ℤ) (h : s.next ≤ s.file.length) :
    (s.read s.file.length limit).file = s.file ∧
      (s.read s.file.length limit).next ≤ s.file.length ∧
      ((s.read s.file.length limit).complete ∧
          (s.read s.file.length limit).next = s.file.length ∨
        s.next < (s.read s.file.length limit).next) := by
  obtain ⟨hlen, hfull⟩ := length_content s.file s.next limit
  have hkept := (kept_length (content s.file s.next limit)).1
  rw [Nat.max_eq_right h] at hlen
  unfold State.read getLlamaServerLogs
  simp only [if_neg (Nat.not_lt.mpr h)]
  split
  case isTrue hend =>
    exact ⟨trivial, hlen, Or.inl ⟨by simp, Nat.le_antisymm hlen hend⟩⟩
  case isFalse hend =>
    exact ⟨trivial, by dsimp only; omega, Or.inr (by dsimp only; omega)⟩

theorem reads_complete (s : State) (h : s.next ≤ s.file.length) (limits : List ℤ)
    (hn : s.file.length < s.next + limits.length ∨ s.complete ∧ s.next = s.file.length) :
    (s.reads limits).complete := by
  induction limits generalizing s with
  | nil => exact hn.elim (fun hn => absurd h (Nat.not_le.mpr hn)) And.left
  | cons limit limits ih =>
    obtain ⟨hfile, hnext, hstep⟩ := read_advances s limit h
    refine ih (s.read s.file.length limit) (hfile ▸ hnext) ?_
    rw [hfile]
    rcases hstep with hdone | hless
    · exact Or.inr hdone
    · rcases hn with hn | ⟨-, hn⟩
      · rw [List.length_cons] at hn
        exact Or.inl (by omega)
      · omega

theorem decode_prefix (file : List UInt8) (n : ℕ) (h : Unbroken file n) :
    utf8.decode (file.take n) <+: utf8.decode file := by
  refine ⟨utf8.decode (file.drop n), ?_⟩
  rw [← utf8.decode_append h, List.take_append_drop]

theorem Inv.step {a : Act} (h : Inv s) (hc : Plain s a) (hs : Llama.step s a = some t) : Inv t := by
  cases a with
  | append bytes =>
    cases hs
    exact h.append hc
  | read grown limit =>
    cases hs
    exact (h.append hc.1).read h.next hc.2

theorem inv_init : Inv State.init where
  next := Nat.le_refl 0
  text := rfl
  unbroken := fun b hb => by cases hb
  complete := fun hd => by cases hd

theorem logs_whole (h : Reach step Plain State.init s) :
    s.next ≤ s.file.length ∧ s.text <+: utf8.decode s.file ∧
      (s.complete = true → s.text = utf8.decode s.file) ∧
      (∀ a t, step s a = some t → s.next ≤ t.next) ∧
      ∀ limits, s.file.length < limits.length → (s.reads limits).complete = true := by
  have hi : Inv s := h.invariant inv_init fun _ _ _ ha hc hs => ha.step hc hs
  refine ⟨hi.next, ?_, fun hd => ?_, fun a t hs => ?_, fun limits hl => ?_⟩
  · rw [hi.text]
    exact decode_prefix _ _ hi.unbroken
  · rw [hi.text, hi.complete hd, List.take_length]
  · cases a with
    | append bytes =>
      cases hs
      exact Nat.le_refl _
    | read grown limit =>
      cases hs
      exact next_le (s.append grown) s.file.length limit hi.next
  · exact reads_complete s hi.next limits (Or.inl (by omega))

theorem logs_whole_plain : ∃ s, Reach step Plain State.init s ∧ s.text = ['é'] := by
  have hplain : Plain State.init (.append [0xc3, 0xa9]) := fun b _ => rfl
  have hread : Plain (State.init.append [0xc3, 0xa9]) (.read [] 0) :=
    ⟨fun b _ => rfl, fun _ b hb => by cases hb⟩
  have hstart : Reach step Plain State.init (State.init.append [0xc3, 0xa9]) :=
    Reach.refl.tail hplain rfl
  have hrun : Reach step Plain State.init ⟨[0xc3, 0xa9], 2, ['é'], true⟩ :=
    hstart.tail hread (by decide +kernel)
  exact ⟨_, hrun, (logs_whole hrun).2.2.1 rfl⟩

/-- `é` is written in two pieces, and read after each of them: both bytes are replaced, and the
read at the end is complete. -/
theorem character_lost : ∃ s, Reach step Free State.init s ∧ (s.complete = true ∧
    s.text = ['\uFFFD', '\uFFFD'] ∧ utf8.decode s.file = ['é']) := by
  have hrun : (replay step Free State.init [.append [0xc3], .read [] 0, .append [0xa9],
      .read [] 0]).any (fun s => decide (s.complete = true ∧ s.text = ['\uFFFD', '\uFFFD'] ∧
        utf8.decode s.file = ['é'])) = true := by
    decide +kernel
  obtain ⟨s, hr, hs⟩ := reach_any hrun
  exact ⟨s, hr, of_decide_eq_true hs⟩

end SparkDeck.Llama
