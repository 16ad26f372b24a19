import Mathlib.Data.List.DropRight
import Mathlib.Data.Rat.Defs
import SparkDeck.EnvFile.Text

/-!
# Edits of an env file

`_normalized_updates` and `apply_env_updates` (`sparkdeck/envfile_settings.py`).

* An update comes as JSON; the keys of an object are texts.
* What the file system says is in `Disk`: what is read, what `os.stat` says before the file is
  replaced, and the time of the new file. The mode and the owner, which are carried over, and the
  backup, which is a copy, are left out.
-/

namespace SparkDeck.EnvFile

inductive Json where
  | null
  | bool (b : Bool)
  | int (n : ℤ)
  /-- A number with a fraction or an exponent. -/
  | float
  | text (s : List Char)
  | array (xs : List Json)
  | object (fields : List (List Char × Json))

inductive UpdateError where
  | shape
  | tooManyUpdates
  | opShape
  | noValue
  | invalidName (key : Option Json)
  | invalidLine (key : List Char)
  | newline (key : List Char)
  | tooLong (key : List Char)
  | notText (key : List Char)
  | noEnabled (key : List Char)
  | valueShape (key : List Char)
  | wrongLine (key : List Char) (line : ℕ)
  | cannotDelete (key : List Char)
  | relativePath
  | stale
  | undecodable
  | fileTooLong
  | tooManyEntries
  | resultTooLong
  | resultTooManyEntries
  | overtaken

/-! ## Updates -/

inductive Change where
  | delete
  /-- There is no value when the text of the entry is kept. -/
  | edit (value : Option (List Char)) (enabled : Bool)
  deriving DecidableEq

structure Op where
  key : List Char
  /-- The line that the operation is pinned to. -/
  line : Option ℕ
  change : Change
  deriving DecidableEq

def Json.get (name : String) (fields : List (List Char × Json)) : Option Json :=
  (fields.find? fun x => x.1 = name.toList).map Prod.snd

/-- `_validate_value` -/
def validateValue (key value : List Char) : Except UpdateError Unit :=
  if value.any fun c => c = '\r' || c = '\n' || c = '\x00' then .error (.newline key)
  else if 8 * 1024 < utf8Length value then .error (.tooLong key)
  else .ok ()

/-- What is asked for one key. -/
def normalizedChange (key : List Char) : Json → Except UpdateError Change
  | .null => .ok .delete
  | .text value => do
    validateValue key value
    .ok (.edit (some value) true)
  | .object fields =>
    match Json.get "value" fields, Json.get "enabled" fields with
    | none, some (.bool enabled) | some .null, some (.bool enabled) => .ok (.edit none enabled)
    | some (.text value), some (.bool enabled) => do
      validateValue key value
      .ok (.edit (some value) enabled)
    | none, _ | some .null, _ | some (.text _), _ => .error (.noEnabled key)
    | _, _ => .error (.notText key)
  | _ => .error (.valueShape key)

def normalizedLine (key : List Char) : Option Json → Except UpdateError (Option ℕ)
  | none | some .null => .ok none
  | some (.int n) => if n < 1 then .error (.invalidLine key) else .ok (some n.toNat)
  | _ => .error (.invalidLine key)

/-- One operation of `_normalized_updates`. -/
def normalizedOp : Json → Except UpdateError Op
  | .object fields =>
    if fields.all fun x => x.1 = "key".toList || x.1 = "value".toList || x.1 = "line".toList then
      match Json.get "value" fields with
      | none => .error .noValue
      | some raw =>
        match Json.get "key" fields with
        | some (.text key) =>
          if isKeyName key then do
            let line ← normalizedLine key (Json.get "line" fields)
            let change ← normalizedChange key raw
            .ok ⟨key, line, change⟩
          else .error (.invalidName (some (.text key)))
        | other => .error (.invalidName other)
    else .error .opShape
  | _ => .error .opShape

/-- The operations of the two forms. -/
def updateOps : Json → Except UpdateError (List Json)
  | .object fields =>
    .ok (fields.map fun x => .object [("key".toList, .text x.1), ("value".toList, x.2)])
  | .array ops => .ok ops
  | _ => .error .shape

/-- `_normalized_updates` -/
def normalizedUpdates (updates : Json) : Except UpdateError (List Op) := do
  let ops ← updateOps updates
  if 128 < ops.length then .error .tooManyUpdates
  else ops.mapM normalizedOp

/-! ## The lines -/

/-- The entry that a key has for the shell: the last active one, else the last one. -/
def effective (entries : List Entry) (key : List Char) : Option Entry :=
  entries.foldl (fun existing entry =>
    if entry.key = key then
      match existing with
      | none => some entry
      | some x => if entry.enabled || !x.enabled then some entry else some x
    else existing) none

/-- The entry that an operation is for. -/
def Op.entry (entries : List Entry) (op : Op) : Except UpdateError (Option Entry) :=
  match op.line with
  | some line =>
    match entries.find? fun e => e.line = line with
    | some e => if e.key = op.key then .ok (some e) else .error (.wrongLine op.key line)
    | none => .error (.wrongLine op.key line)
  | none => .ok (effective entries op.key)

def isCrLf (c : Char) : Bool := c = '\r' || c = '\n'

def marker (enabled : Bool) : List Char := if enabled then [] else ['#', ' ']

/-- What an edit makes of the line of an entry. -/
def editLine (wasEnabled : Bool) (key : List Char) (value : Option (List Char)) (enabled : Bool)
    (line : List Char) : List Char :=
  let newline := line.rtakeWhile isCrLf
  match matchLine wasEnabled (line.rdropWhile isCrLf) with
  | some m =>
    let (old, comment) := splitValue m.rest
    m.indent ++ marker enabled ++ m.exported ++ key ++ '=' ::
      ((value.map shellLiteral).getD old ++ comment ++ newline)
  | none => marker enabled ++ key ++ '=' :: ((value.map shellLiteral).getD [] ++ newline)

def appendedLine (newline key : List Char) (value : Option (List Char)) (enabled : Bool) :
    List Char :=
  marker enabled ++ key ++ '=' :: (shellLiteral (value.getD []) ++ newline)

/-- The local variables of `apply_env_updates`. -/
structure Work where
  lines : List (List Char)
  appended : List (List Char)
  updated : List (List Char)
  deleted : List (List Char)
  enabledKeys : List (List Char)

/-- One turn of the loop. -/
def Work.turn (newline : List Char) (entries : List Entry) (w : Work) (op : Op) :
    Except UpdateError Work := do
  match op.change, ← op.entry entries with
  | .delete, none => .error (.cannotDelete op.key)
  | .delete, some e =>
    .ok { w with lines := w.lines.set (e.line - 1) [], deleted := w.deleted ++ [op.key] }
  | .edit value enabled, some e =>
    .ok { w with
      lines := w.lines.modify (e.line - 1) (editLine e.enabled op.key value enabled)
      enabledKeys := if enabled && !e.enabled then w.enabledKeys ++ [op.key] else w.enabledKeys
      updated := w.updated ++ [op.key] }
  | .edit value enabled, none =>
    .ok { w with
      appended := w.appended ++ [appendedLine newline op.key value enabled]
      enabledKeys := if enabled then w.enabledKeys ++ [op.key] else w.enabledKeys
      updated := w.updated ++ [op.key] }

/-- `dominant_newline` -/
def dominantNewline (lines : List (List Char)) : List Char :=
  if lines.length < (lines.filter fun l => ['\r', '\n'].isSuffixOf l).length * 2 then ['\r', '\n']
  else ['\n']

/-- `line.endswith(("\n", "\r"))` -/
def endsLine (line : List Char) : Bool := line.getLast?.any isCrLf

/-- The last line is ended before other lines are appended. -/
def closed (newline : List Char) (lines : List (List Char)) : List (List Char) :=
  match lines.getLast? with
  | some l => if endsLine l then lines else lines.dropLast ++ [l ++ newline]
  | none => lines

def Work.rendered (newline : List Char) (w : Work) : List Char :=
  if w.appended.isEmpty then w.lines.flatten
  else (closed newline w.lines ++ w.appended).flatten

/-- The new text. -/
def updatedText (text : List Char) (ops : List Op) : Except UpdateError (List Char × Work) := do
  if 256 * 1024 < utf8Length text then .error .fileTooLong
  else
    let entries := parseEnvFile text
    if 512 < entries.length then .error .tooManyEntries
    else
      let lines := lineBreaks.split text
      let newline := dominantNewline lines
      let w ← ops.foldlM (Work.turn newline entries) ⟨lines, [], [], [], []⟩
      let rendered := w.rendered newline
      if 256 * 1024 < utf8Length rendered then .error .resultTooLong
      else if 512 < (parseEnvFile rendered).length then .error .resultTooManyEntries
      else .ok (rendered, w)

/-! ## The file -/

structure Stat where
  mtime : ℚ
  inode : ℕ
  size : ℕ
  deriving DecidableEq

structure Disk where
  stat : Stat
  /-- There is none when the bytes are not UTF-8. -/
  text : Option (List Char)
  /-- What `os.stat` says just before the file is replaced. -/
  current : Stat
  /-- The time of the new file. -/
  after : ℚ

structure Written where
  text : List Char
  backup : List Char
  mtime : ℚ
  updated : List (List Char)
  deleted : List (List Char)
  enabled : List (List Char)

/-- `apply_env_updates` -/
def applyEnvUpdates (path : List Char) (disk : Disk) (updates : Json) (expectedMtime : Option ℚ) :
    Except UpdateError Written := do
  if path.head? ≠ some '/' then .error .relativePath
  else
    let ops ← normalizedUpdates updates
    if expectedMtime.any fun t => disk.stat.mtime ≠ t then .error .stale
    else
      match disk.text with
      | none => .error .undecodable
      | some text =>
        let (rendered, w) ← updatedText text ops
        if disk.current ≠ disk.stat then .error .overtaken
        else .ok ⟨rendered, text, disk.after, w.updated, w.deleted, w.enabledKeys⟩

/-! ## CR and LF -/

def NoCrLf (l : List Char) : Prop := ∀ c ∈ l, isCrLf c = false

theorem NoCrLf.append {a b : List Char} (ha : NoCrLf a) (hb : NoCrLf b) : NoCrLf (a ++ b) :=
  fun c hc => (List.mem_append.mp hc).elim (ha c) (hb c)

variable {c : Char}

theorem sep_of_crLf (h : isCrLf c) : lineBreaks.sep c := by
  unfold isCrLf at h
  simp only [Bool.or_eq_true, decide_eq_true_eq] at h
  rcases h with rfl | rfl
  · decide
  · decide

theorem noCrLf_of_clear {l : List Char} (h : lineBreaks.Clear l) : NoCrLf l := fun c hc => by
  by_contra hn
  have hs := sep_of_crLf (c := c) (by simpa using hn)
  rw [h c hc] at hs
  cases hs

/-- The CR and LF at the end of a line are what is stripped. -/
theorem strip_append {a t : List Char} (ha : NoCrLf a) (ht : ∀ c ∈ t, isCrLf c) :
    (a ++ t).rdropWhile isCrLf = a ∧ (a ++ t).rtakeWhile isCrLf = t := by
  have hrev := takeWhile_stop (p := isCrLf) (a := t.reverse) (b := a.reverse)
    (fun c hc => ht c (List.mem_reverse.mp hc))
    (fun c hc => ha c (List.mem_reverse.mp (List.mem_of_mem_head? hc)))
  unfold List.rdropWhile List.rtakeWhile
  rw [List.reverse_append, hrev.1, hrev.2, List.reverse_reverse, List.reverse_reverse]
  exact ⟨rfl, rfl⟩

/-- A line is a text without line breaks, then another break than CR and LF, or these. -/
structure Parts (l b x t : List Char) : Prop where
  line : l = b ++ x ++ t
  body : lineBreaks.body l = b
  clear : lineBreaks.Clear b
  other : NoCrLf x
  crLf : ∀ c ∈ t, isCrLf c
  term : lineBreaks.term l = x ++ t
  isTerm : lineBreaks.IsTerm (x ++ t)
  single : x = [] ∨ t = []

theorem line_parts {l : List Char} (h : lineBreaks.Single l) : ∃ b x t, Parts l b x t := by
  have hl := Breaks.body_append_term (E := lineBreaks) l
  have hb := Breaks.clear_body (E := lineBreaks) l
  have hterm := h.term
  rcases hterm with ht | ⟨c, hc, ht⟩ | ht
  · refine ⟨_, [], [], ?_, rfl, hb, nofun, nofun, ht, Or.inl rfl, Or.inl rfl⟩
    rw [List.append_nil]
    exact hl.symm.trans (congrArg _ ht)
  · cases hcr : isCrLf c with
    | true =>
      refine ⟨_, [], [c], by rw [List.append_nil, ← ht, hl], rfl, hb, nofun, fun d hd => ?_, ht,
        Or.inr (Or.inl ⟨c, hc, rfl⟩), Or.inl rfl⟩
      rw [List.mem_singleton.mp hd, hcr]
    | false =>
      refine ⟨_, [c], [], by rw [List.append_nil, ← ht, hl], rfl, hb, fun d hd => ?_, nofun, ht,
        Or.inr (Or.inl ⟨c, hc, rfl⟩), Or.inr rfl⟩
      rw [List.mem_singleton.mp hd, hcr]
  · refine ⟨_, [], ['\r', '\n'], ?_, rfl, hb, nofun, List.forall_mem_cons.mpr
      ⟨rfl, List.forall_mem_cons.mpr ⟨rfl, nofun⟩⟩, ht, Or.inr (Or.inr rfl), Or.inl rfl⟩
    rw [List.append_nil]
    exact hl.symm.trans (congrArg _ ht)

theorem Parts.strip {l b x t : List Char} (h : Parts l b x t) :
    l.rdropWhile isCrLf = b ++ x ∧ l.rtakeWhile isCrLf = t := by
  rw [h.line]
  exact strip_append ((noCrLf_of_clear h.clear).append h.other) h.crLf

theorem Parts.other_term {l b x t : List Char} (h : Parts l b x t) : lineBreaks.term x = x := by
  rcases h.single with hx | ht
  · rw [hx]
    rfl
  · have hterm := h.isTerm
    rw [ht, List.append_nil] at hterm
    exact hterm.term

/-! ## Texts that are written -/

theorem clear_name {key : List Char} (h : isKeyName key) : lineBreaks.Clear key := by
  intro c hc
  by_contra hn
  obtain ⟨_, _, _, _, hall⟩ := isKeyName_iff.mp h
  have hs := space_of_sep (c := c) (by simpa using hn)
  rw [not_space_of_nameRest (hall c hc)] at hs
  cases hs

variable {value : List Char}

theorem escapeQuotes_mem (h : c ∈ escapeQuotes value) : c ∈ value ∨ c = '\'' ∨ c = '\\' := by
  induction value with
  | nil => exact Or.inl h
  | cons d ds ih =>
    rw [escapeQuotes] at h
    split at h
    · simp only [List.mem_cons] at h
      rcases h with h | h | h | h | h
      · exact Or.inr (Or.inl h)
      · exact Or.inr (Or.inr h)
      · exact Or.inr (Or.inl h)
      · exact Or.inr (Or.inl h)
      · exact (ih h).imp_left (List.mem_cons_of_mem d)
    · rcases List.mem_cons.mp h with rfl | h
      · exact Or.inl List.mem_cons_self
      · exact (ih h).imp_left (List.mem_cons_of_mem d)

theorem shellLiteral_mem (h : c ∈ shellLiteral value) : c ∈ value ∨ c = '\'' ∨ c = '\\' := by
  unfold shellLiteral at h
  split at h
  · exact Or.inl h
  · rcases List.mem_cons.mp h with rfl | h
    · exact Or.inr (Or.inl rfl)
    · rcases List.mem_append.mp h with h | h
      · exact escapeQuotes_mem h
      · exact Or.inr (Or.inl (List.mem_singleton.mp h))

theorem noCrLf_literal (h : NoCrLf value) : NoCrLf (shellLiteral value) := by
  intro c hc
  rcases shellLiteral_mem hc with hc | rfl | rfl
  · exact h c hc
  · decide
  · decide

theorem clear_literal (h : lineBreaks.Clear value) : lineBreaks.Clear (shellLiteral value) := by
  intro c hc
  rcases shellLiteral_mem hc with hc | rfl | rfl
  · exact h c hc
  · decide
  · decide

theorem mem_escapeQuotes (h : c ∈ value) : c ∈ escapeQuotes value := by
  induction value with
  | nil => cases h
  | cons d ds ih =>
    rw [escapeQuotes]
    rcases List.mem_cons.mp h with rfl | h
    · split
      · next he => simp [he]
      · exact List.mem_cons_self
    · split
      · simp [ih h]
      · exact List.mem_cons_of_mem d (ih h)

theorem clear_of_literal (h : lineBreaks.Clear (shellLiteral value)) : lineBreaks.Clear value := by
  intro c hc
  refine h c ?_
  unfold shellLiteral
  split
  · exact hc
  · exact List.mem_cons_of_mem _ (List.mem_append_left _ (mem_escapeQuotes hc))

theorem clear_marker (enabled : Bool) : lineBreaks.Clear (marker enabled) := by
  cases enabled with
  | true => exact nofun
  | false => exact List.forall_mem_cons.mpr ⟨rfl, List.forall_mem_cons.mpr ⟨rfl, nofun⟩⟩

theorem clear_export {word : List Char} (h : IsExport word) : lineBreaks.Clear word := by
  rcases h with rfl | ⟨blanks, _, hblanks, rfl⟩
  · exact nofun
  · refine Breaks.Clear.append (fun c hc => ?_) fun c hc => ?_
    · have hword : isKeyName exportWord := by decide
      exact clear_name hword c hc
    · have hb := hblanks c hc
      unfold isBlank at hb
      simp only [Bool.or_eq_true, decide_eq_true_eq] at hb
      rcases hb with rfl | rfl
      · decide
      · decide

end SparkDeck.EnvFile
