import Mathlib.Algebra.GroupWithZero.Nat
import SparkDeck.Lib.Splitlines

/-!
# Lines of an env file

`_split_value`, `_shell_literal`, `_validate_value` and `parse_env_file`
(`sparkdeck/envfile_settings.py`). A text is the list of its characters.

* `str.splitlines` knows more line breaks than LF, CR and CRLF: `lineBreaks`.
* `_ACTIVE_LINE` and `_COMMENTED_LINE` are read from the left; they never have two ways to match, but
  for `export`, which may be the key itself.
-/

namespace SparkDeck.EnvFile

/-- What `str.splitlines` breaks a text at. -/
def lineBreaks : Breaks Char where
  sep c := c ∈ ['\n', '\r', '\x0b', '\x0c', '\x1c', '\x1d', '\x1e', '\u0085', '\u2028', '\u2029']
  cr := '\r'
  lf := '\n'
  sep_cr := rfl
  sep_lf := rfl
  ne := by decide

/-- `str.isspace` of one character; also `\s` of a pattern. -/
def isSpace (c : Char) : Bool :=
  c ∈ ['\t', '\n', '\x0b', '\x0c', '\r', '\x1c', '\x1d', '\x1e', '\x1f', ' ', '\u0085', '\u00a0',
    '\u1680', '\u2028', '\u2029', '\u202f', '\u205f', '\u3000'] ||
  (0x2000 ≤ c.toNat && c.toNat ≤ 0x200a)

def isBlank (c : Char) : Bool := c = ' ' || c = '\t'

def isNameStart (c : Char) : Bool := c.isAlpha || c = '_'

def isNameRest (c : Char) : Bool := isNameStart c || c.isDigit

/-- `_KEY_NAME.fullmatch` -/
def isKeyName : List Char → Bool
  | [] => false
  | c :: cs => isNameStart c && cs.all isNameRest

/-! ## Values -/

/-- `re.search(r"\s+#", text)`: what is before the match, and the rest. -/
def splitMarker : List Char → List Char × List Char
  | [] => ([], [])
  | c :: cs =>
    if isSpace c && (cs.dropWhile isSpace).head? = some '#' then ([], c :: cs)
    else (c :: (splitMarker cs).1, (splitMarker cs).2)

/-- A text up to the quote that closes it, and the rest; all of it when there is none. -/
def splitSingle : List Char → List Char × List Char
  | [] => ([], [])
  | c :: cs => if c = '\'' then ([c], cs) else (c :: (splitSingle cs).1, (splitSingle cs).2)

/-- The same for a double quote: a backslash escapes the next character. -/
def splitDouble : List Char → List Char × List Char
  | [] => ([], [])
  | '\\' :: d :: cs => ('\\' :: d :: (splitDouble cs).1, (splitDouble cs).2)
  | c :: cs => if c = '"' then ([c], cs) else (c :: (splitDouble cs).1, (splitDouble cs).2)

/-- `_split_value` -/
def splitValue (raw : List Char) : List Char × List Char :=
  match raw.dropWhile isSpace with
  | [] => ([], [])
  | c :: cs =>
    if c = '\'' then (c :: (splitSingle cs).1, (splitSingle cs).2)
    else if c = '"' then (c :: (splitDouble cs).1, (splitDouble cs).2)
    else splitMarker (c :: cs)

/-- `_SAFE_VALUE` for one character -/
def isSafe (c : Char) : Bool :=
  c.isAlpha || c.isDigit || c ∈ ['_', '.', '/', ':', '@', '%', '+', '=', ',', '-']

/-- `value.replace("'", "'\\''")` -/
def escapeQuotes : List Char → List Char
  | [] => []
  | c :: cs => if c = '\'' then '\'' :: '\\' :: '\'' :: '\'' :: escapeQuotes cs else c :: escapeQuotes cs

/-- `_shell_literal` -/
def shellLiteral (value : List Char) : List Char :=
  if value.all isSafe then value else '\'' :: (escapeQuotes value ++ ['\''])

/-- The length of the UTF-8 encoding. -/
def utf8Length (text : List Char) : ℕ := (text.map Char.utf8Size).sum

/-! ## Entries -/

/-- What `_ACTIVE_LINE` or `_COMMENTED_LINE` says of a line; `rest` is what follows the `=`. -/
structure Match where
  indent : List Char
  exported : List Char
  key : List Char
  rest : List Char
  deriving DecidableEq

/-- `(?P<key>[A-Za-z_][A-Za-z0-9_]*)[ \t]*=` -/
def matchKey (line : List Char) : Option (List Char × List Char) :=
  match (line.dropWhile isNameRest).dropWhile isBlank with
  | '=' :: rest =>
    if isKeyName (line.takeWhile isNameRest) then some (line.takeWhile isNameRest, rest) else none
  | _ => none

def exportWord : List Char := "export".toList

/-- `export[ \t]+` -/
def matchExport (line : List Char) : Option (List Char × List Char) :=
  match exportWord.isPrefixOf? line with
  | some rest =>
    if (rest.takeWhile isBlank).isEmpty then none
    else some (exportWord ++ rest.takeWhile isBlank, rest.dropWhile isBlank)
  | none => none

/-- `(?P<export>export[ \t]+)?` and the key. -/
def matchAssignment (indent line : List Char) : Option Match :=
  match (matchExport line).bind fun x => (matchKey x.2).map fun k => Match.mk indent x.1 k.1 k.2 with
  | some m => some m
  | none => (matchKey line).map fun k => ⟨indent, [], k.1, k.2⟩

/-- `_ACTIVE_LINE.match` -/
def matchActive (line : List Char) : Option Match :=
  matchAssignment (line.takeWhile isSpace) (line.dropWhile isSpace)

/-- `_COMMENTED_LINE.match` -/
def matchCommented (line : List Char) : Option Match :=
  match line.dropWhile isSpace with
  | '#' :: rest => matchAssignment (line.takeWhile isSpace) (rest.dropWhile isBlank)
  | _ => none

/-- The pattern for an entry that is enabled or not. -/
def matchLine (enabled : Bool) (line : List Char) : Option Match :=
  if enabled then matchActive line else matchCommented line

structure Entry where
  key : List Char
  value : List Char
  enabled : Bool
  /-- From one. -/
  line : ℕ
  deriving DecidableEq

/-- The entry on a line, if it has one. -/
def entryOf (number : ℕ) (line : List Char) : Option Entry :=
  match matchActive line with
  | some m => some ⟨m.key, (splitValue m.rest).1, true, number⟩
  | none =>
    match matchCommented line with
    | some m => some ⟨m.key, (splitValue m.rest).1, false, number⟩
    | none => none

/-- `parse_env_file` -/
def parseEnvFile (text : List Char) : List Entry :=
  ((lineBreaks.split text).zipIdx 1).filterMap fun x => entryOf x.2 (lineBreaks.body x.1)

/-! ## What the patterns match -/

variable {c : Char}

/-- Characters that a key is made of are not blank. -/
theorem not_blank_of_nameRest (h : isNameRest c = true) : isBlank c = false := by
  by_contra hb
  have hb : isBlank c := by simpa using hb
  unfold isBlank at hb
  simp only [Bool.or_eq_true, decide_eq_true_eq] at hb
  rcases hb with rfl | rfl
  · cases h
  · cases h

theorem isKeyName_iff {key : List Char} :
    isKeyName key ↔ ∃ c cs, key = c :: cs ∧ isNameStart c ∧ ∀ x ∈ key, isNameRest x := by
  cases key with
  | nil => simp [isKeyName]
  | cons c cs =>
    have hc : isNameStart c → isNameRest c := fun h => by simp [isNameRest, h]
    simp only [isKeyName, Bool.and_eq_true, List.all_eq_true, List.cons.injEq, List.forall_mem_cons]
    constructor
    · rintro ⟨h1, h2⟩
      exact ⟨c, cs, ⟨rfl, rfl⟩, h1, hc h1, h2⟩
    · rintro ⟨_, _, ⟨rfl, rfl⟩, h1, _, h2⟩
      exact ⟨h1, h2⟩

/-- A key, blanks and `=`. -/
structure KeyForm (line key rest : List Char) : Prop where
  name : isKeyName key
  shape : ∃ blanks, (∀ c ∈ blanks, isBlank c) ∧ line = key ++ blanks ++ '=' :: rest

theorem takeWhile_stop {α : Type*} {p : α → Bool} {a b : List α} (ha : ∀ c ∈ a, p c)
    (hb : ∀ c ∈ b.head?, p c = false) : (a ++ b).takeWhile p = a ∧ (a ++ b).dropWhile p = b := by
  rw [List.takeWhile_append_of_pos ha, List.dropWhile_append_of_pos ha]
  cases b with
  | nil => simp
  | cons c b =>
    have hc := hb c rfl
    simp [hc]

variable {line key rest : List Char}

theorem matchKey_iff : matchKey line = some (key, rest) ↔ KeyForm line key rest := by
  unfold matchKey
  constructor
  · intro h
    split at h
    · next r hr =>
      obtain ⟨hk, h⟩ := Option.ite_none_right_eq_some.mp h
      cases h
      refine ⟨hk, (line.dropWhile isNameRest).takeWhile isBlank,
        fun c hc => List.mem_takeWhile_imp hc, ?_⟩
      rw [List.append_assoc, ← hr, List.takeWhile_append_dropWhile,
        List.takeWhile_append_dropWhile]
    · cases h
  · rintro ⟨hk, blanks, hblanks, rfl⟩
    obtain ⟨_, _, _, _, hrest⟩ := isKeyName_iff.mp hk
    have hhead : ∀ c ∈ (blanks ++ '=' :: rest).head?, isNameRest c = false := by
      intro c hc
      cases blanks with
      | nil =>
        cases hc
        decide
      | cons b bs =>
        obtain rfl := Option.some.inj hc
        by_contra hn
        have hb := hblanks b List.mem_cons_self
        rw [not_blank_of_nameRest (by simpa using hn)] at hb
        cases hb
    obtain ⟨htake, hdrop⟩ := takeWhile_stop hrest hhead
    obtain ⟨_, hblank⟩ := takeWhile_stop (b := '=' :: rest) hblanks fun c hc => by
      cases hc
      decide
    rw [List.append_assoc, htake, hdrop, hblank]
    simp only [hk, if_true]

/-- The word `export` and blanks, or nothing. -/
def IsExport (word : List Char) : Prop :=
  word = [] ∨ ∃ blanks, blanks ≠ [] ∧ (∀ c ∈ blanks, isBlank c) ∧ word = exportWord ++ blanks

theorem matchExport_eq {line word rest : List Char} (h : matchExport line = some (word, rest)) :
    line = word ++ rest ∧ ∃ blanks, blanks ≠ [] ∧ (∀ c ∈ blanks, isBlank c) ∧
      word = exportWord ++ blanks := by
  unfold matchExport at h
  split at h
  · next r hr =>
    obtain ⟨hne, h⟩ := Option.ite_none_left_eq_some.mp h
    cases h
    refine ⟨?_, r.takeWhile isBlank, fun hn => hne (by rw [hn]; rfl),
      fun c hc => List.mem_takeWhile_imp hc, rfl⟩
    rw [List.append_assoc, List.takeWhile_append_dropWhile]
    exact (List.isPrefixOf?_eq_some_iff_append_eq.mp hr).symm
  · cases h

/-- What `matchAssignment` finds. -/
structure AssignmentForm (line : List Char) (m : Match) : Prop where
  exported : IsExport m.exported
  shape : ∃ l, line = m.exported ++ l ∧ KeyForm l m.key m.rest

theorem keyForm_head (h : KeyForm line key rest) :
    ∃ c cs, line = c :: cs ∧ isNameStart c := by
  obtain ⟨hname, blanks, _, rfl⟩ := h
  obtain ⟨c, cs, rfl, hc, _⟩ := isKeyName_iff.mp hname
  exact ⟨c, _, rfl, hc⟩

theorem not_blank_of_nameStart (h : isNameStart c = true) : isBlank c = false :=
  not_blank_of_nameRest (by simp [isNameRest, h])

theorem matchExport_form {l key rest blanks : List Char} (h : KeyForm l key rest)
    (hne : blanks ≠ []) (hblanks : ∀ c ∈ blanks, isBlank c) :
    matchExport (exportWord ++ blanks ++ l) = some (exportWord ++ blanks, l) := by
  obtain ⟨c, cs, rfl, hc⟩ := keyForm_head h
  obtain ⟨htake, hdrop⟩ := takeWhile_stop (b := c :: cs) hblanks fun d hd => by
    cases hd
    exact not_blank_of_nameStart hc
  unfold matchExport
  rw [List.append_assoc, List.isPrefixOf?_eq_some_iff_append_eq.mpr rfl]
  dsimp only
  rw [htake, hdrop, if_neg]
  simpa using hne

/-- `export` is the key itself when no other key follows. -/
theorem matchExport_key (h : KeyForm line key rest) :
    ((matchExport line).bind fun x => matchKey x.2) = none := by
  cases hx : matchExport line with
  | none => rfl
  | some x =>
    obtain ⟨word, r⟩ := x
    obtain ⟨hline, blanks, hne, hblanks, rfl⟩ := matchExport_eq hx
    obtain ⟨hname, gap, hgap, hshape⟩ := h
    obtain ⟨_, _, _, _, hall⟩ := isKeyName_iff.mp hname
    -- both readings take the same key from the left
    have hb : ∀ {a b : List Char}, (∀ c ∈ a, isBlank c) → a ≠ [] ∨ b.head? = some '=' →
        ∀ c ∈ (a ++ b).head?, isNameRest c = false := by
      intro a b ha hab c hc
      cases a with
      | nil =>
        rcases hab with hab | hab
        · exact absurd rfl hab
        · rw [List.nil_append, hab] at hc
          cases hc
          decide
      | cons d ds =>
        obtain rfl := Option.some.inj hc
        by_contra hn
        have hd := ha d List.mem_cons_self
        rw [not_blank_of_nameRest (by simpa using hn)] at hd
        cases hd
    have hkey := (takeWhile_stop hall (hb (b := '=' :: rest) hgap (Or.inr rfl))).1
    have hdrop := (takeWhile_stop hall (hb (b := '=' :: rest) hgap (Or.inr rfl))).2
    have hword : ∀ c ∈ exportWord, isNameRest c := List.all_eq_true.mp (by decide)
    have hkey' := (takeWhile_stop hword (hb (b := r) hblanks (Or.inl hne))).1
    have hdrop' := (takeWhile_stop hword (hb (b := r) hblanks (Or.inl hne))).2
    rw [← List.append_assoc, ← hshape, hline, List.append_assoc] at hkey hdrop
    rw [hkey'] at hkey
    rw [hdrop'] at hdrop
    obtain ⟨_, hr⟩ := takeWhile_stop (b := '=' :: rest) hgap fun c hc => by
      cases hc
      decide
    dsimp only [Option.bind_some]
    cases hm : matchKey r with
    | none => rfl
    | some y =>
      obtain ⟨c, cs, rfl, hc⟩ := keyForm_head (matchKey_iff.mp hm)
      obtain ⟨_, hr'⟩ := takeWhile_stop (b := c :: cs) hblanks fun d hd => by
        cases hd
        exact not_blank_of_nameStart hc
      rw [hdrop, hr] at hr'
      obtain rfl := (List.cons.inj hr').1
      cases hc

variable {m : Match}

theorem matchAssignment_iff {indent line : List Char} :
    matchAssignment indent line = some m ↔ m.indent = indent ∧ AssignmentForm line m := by
  unfold matchAssignment
  constructor
  · intro h
    split at h
    · next m' hm =>
      cases h
      obtain ⟨⟨word, r⟩, hx, hk⟩ := Option.bind_eq_some_iff.mp hm
      obtain ⟨⟨key, rest⟩, hkey, rfl⟩ := Option.map_eq_some_iff.mp hk
      obtain ⟨rfl, hword⟩ := matchExport_eq hx
      exact ⟨rfl, Or.inr hword, r, rfl, matchKey_iff.mp hkey⟩
    · obtain ⟨⟨key, rest⟩, hkey, rfl⟩ := Option.map_eq_some_iff.mp h
      exact ⟨rfl, Or.inl rfl, line, rfl, matchKey_iff.mp hkey⟩
  · obtain ⟨i, exported, key, rest⟩ := m
    rintro ⟨rfl, hword, l, rfl, hkey⟩
    dsimp only at hword hkey
    rcases hword with rfl | ⟨blanks, hne, hblanks, rfl⟩
    · have hnone : ((matchExport l).bind fun x => (matchKey x.2).map fun k =>
          Match.mk i x.1 k.1 k.2) = none := by
        have h := matchExport_key hkey
        cases hx : matchExport l with
        | none => rfl
        | some x =>
          rw [hx] at h
          exact Option.map_eq_none_iff.mpr h
      dsimp only [List.nil_append]
      rw [hnone, matchKey_iff.mpr hkey]
      rfl
    · dsimp only
      rw [matchExport_form hkey hne hblanks]
      simp only [Option.bind_some, matchKey_iff.mpr hkey, Option.map_some]

/-- What `_ACTIVE_LINE` or `_COMMENTED_LINE` finds. -/
structure LineForm (enabled : Bool) (line : List Char) (m : Match) : Prop where
  indent : ∀ c ∈ m.indent, isSpace c
  shape : ∃ hash l, line = m.indent ++ hash ++ l ∧ AssignmentForm l m ∧
    if enabled then hash = []
    else ∃ blanks, (∀ c ∈ blanks, isBlank c) ∧ hash = '#' :: blanks

theorem assignment_head {l : List Char} (h : AssignmentForm l m) :
    ∃ c cs, l = c :: cs ∧ isNameStart c := by
  obtain ⟨hword, l, rfl, hkey⟩ := h
  rcases hword with hw | ⟨blanks, _, _, hw⟩
  · rw [hw]
    exact keyForm_head hkey
  · rw [hw]
    exact ⟨'e', _, rfl, by decide⟩

theorem nameRest_le (h : isNameRest c) : c.toNat ≤ 122 := by
  unfold isNameRest isNameStart Char.isAlpha Char.isUpper Char.isLower Char.isDigit at h
  simp only [Bool.or_eq_true, Bool.and_eq_true, decide_eq_true_eq] at h
  rcases h with ((⟨_, h⟩ | ⟨_, h⟩) | rfl) | ⟨_, h⟩
  · exact le_trans (UInt32.le_iff_toNat_le.mp h) (by decide)
  · exact UInt32.le_iff_toNat_le.mp h
  · decide
  · exact le_trans (UInt32.le_iff_toNat_le.mp h) (by decide)

theorem not_space_of_nameRest (h : isNameRest c = true) : isSpace c = false := by
  by_contra hs
  have hs : isSpace c := by simpa using hs
  rcases Bool.or_eq_true_iff.mp hs with hs | hs
  · revert h
    have hall : (['\t', '\n', '\x0b', '\x0c', '\r', '\x1c', '\x1d', '\x1e', '\x1f', ' ', '\u0085',
        '\u00a0', '\u1680', '\u2028', '\u2029', '\u202f', '\u205f', '\u3000'].all
        fun x => !isNameRest x) = true := by decide
    simpa using List.all_eq_true.mp hall c (of_decide_eq_true hs)
  · have hle := of_decide_eq_true (Bool.and_eq_true_iff.mp hs).1
    exact absurd (le_trans hle (nameRest_le h)) (by decide)

theorem space_of_sep (h : lineBreaks.sep c) : isSpace c := by
  have hall : (['\n', '\r', '\x0b', '\x0c', '\x1c', '\x1d', '\x1e', '\u0085', '\u2028',
      '\u2029'].all isSpace) := by decide
  exact List.all_eq_true.mp hall c (of_decide_eq_true h)

theorem space_of_blank (h : isBlank c) : isSpace c := by
  unfold isBlank at h
  simp only [Bool.or_eq_true, decide_eq_true_eq] at h
  rcases h with rfl | rfl
  · decide
  · decide

theorem not_space_of_nameStart (h : isNameStart c = true) : isSpace c = false :=
  not_space_of_nameRest (by simp [isNameRest, h])

variable {enabled : Bool}

theorem matchLine_iff {line : List Char} :
    matchLine enabled line = some m ↔ LineForm enabled line m := by
  unfold matchLine
  cases enabled with
  | true =>
    rw [if_pos rfl, matchActive, matchAssignment_iff]
    constructor
    · rintro ⟨hindent, hform⟩
      refine ⟨fun c hc => List.mem_takeWhile_imp (hindent ▸ hc), [], _, ?_, hform, by rw [if_pos rfl]⟩
      rw [hindent, List.append_nil, List.takeWhile_append_dropWhile]
    · rintro ⟨hindent, hash, l, rfl, hform, hhash⟩
      rw [if_pos rfl] at hhash
      subst hhash
      rw [List.append_nil]
      obtain ⟨c, cs, rfl, hc⟩ := assignment_head hform
      obtain ⟨htake, hdrop⟩ := takeWhile_stop (b := c :: cs) hindent fun d hd => by
        cases hd
        exact not_space_of_nameStart hc
      rw [htake, hdrop]
      exact ⟨rfl, hform⟩
  | false =>
    rw [if_neg Bool.false_ne_true, matchCommented]
    constructor
    · intro h
      split at h
      · next rest hrest =>
        obtain ⟨hindent, hform⟩ := matchAssignment_iff.mp h
        refine ⟨fun c hc => List.mem_takeWhile_imp (hindent ▸ hc),
          '#' :: rest.takeWhile isBlank, _, ?_, hform, ?_⟩
        · rw [hindent, List.append_assoc, List.cons_append, List.takeWhile_append_dropWhile, ← hrest,
            List.takeWhile_append_dropWhile]
        · rw [if_neg Bool.false_ne_true]
          exact ⟨_, fun c hc => List.mem_takeWhile_imp hc, rfl⟩
      · cases h
    · rintro ⟨hindent, hash, l, rfl, hform, hhash⟩
      rw [if_neg Bool.false_ne_true] at hhash
      obtain ⟨blanks, hblanks, rfl⟩ := hhash
      obtain ⟨htake, hdrop⟩ := takeWhile_stop (b := '#' :: (blanks ++ l)) hindent fun d hd => by
        cases hd
        decide
      obtain ⟨c, cs, rfl, hc⟩ := assignment_head hform
      obtain ⟨_, hdrop'⟩ := takeWhile_stop (b := c :: cs) hblanks fun d hd => by
        cases hd
        exact not_blank_of_nameStart hc
      rw [List.append_assoc, List.cons_append, htake, hdrop]
      refine matchAssignment_iff.mpr ⟨rfl, ?_⟩
      rw [hdrop']
      exact hform

/-- What follows an assignment does not change what it assigns to. -/
theorem matchLine_append {line : List Char} (h : matchLine enabled line = some m) (t : List Char) :
    matchLine enabled (line ++ t) = some { m with rest := m.rest ++ t } := by
  obtain ⟨hindent, hash, l, rfl, ⟨hword, l', rfl, hname, blanks, hblanks, rfl⟩, hhash⟩ :=
    matchLine_iff.mp h
  refine matchLine_iff.mpr ⟨hindent, hash, _, ?_, ⟨hword, _, rfl, hname, blanks, hblanks, rfl⟩, hhash⟩
  simp only [List.append_assoc, List.cons_append]

/-- A line does not match both patterns. -/
theorem matchLine_exclusive {line : List Char} (h : matchLine enabled line = some m) :
    matchLine (!enabled) line = none := by
  cases hother : matchLine (!enabled) line with
  | none => rfl
  | some m' =>
    exfalso
    have hactive : ∀ {m m' : Match}, LineForm true line m → LineForm false line m' → False := by
      rintro m m' ⟨hindent, hash, l, rfl, hform, hhash⟩ ⟨hindent', hash', l', hline, _, hhash'⟩
      rw [if_pos rfl] at hhash
      rw [if_neg Bool.false_ne_true] at hhash'
      obtain ⟨blanks, _, rfl⟩ := hhash'
      subst hhash
      obtain ⟨c, cs, rfl, hc⟩ := assignment_head hform
      rw [List.append_nil, List.append_assoc, List.cons_append] at hline
      -- the first character that is not a space
      have hdrop := (takeWhile_stop (b := c :: cs) hindent fun d hd => by
        cases hd
        exact not_space_of_nameStart hc).2
      rw [hline, (takeWhile_stop (b := '#' :: (blanks ++ l')) hindent' fun d hd => by
        cases hd
        decide).2] at hdrop
      obtain rfl := (List.cons.inj hdrop).1
      cases hc
    cases enabled with
    | true => exact hactive (matchLine_iff.mp h) (matchLine_iff.mp hother)
    | false => exact hactive (matchLine_iff.mp hother) (matchLine_iff.mp h)

/-! ## Values -/

theorem splitMarker_append (text : List Char) :
    (splitMarker text).1 ++ (splitMarker text).2 = text := by
  induction text with
  | nil => rfl
  | cons c cs ih =>
    rw [splitMarker]
    split
    · rfl
    · exact congrArg (c :: ·) ih

theorem splitSingle_append (text : List Char) :
    (splitSingle text).1 ++ (splitSingle text).2 = text := by
  induction text with
  | nil => rfl
  | cons c cs ih =>
    rw [splitSingle]
    split
    · rfl
    · exact congrArg (c :: ·) ih

theorem splitDouble_append (text : List Char) :
    (splitDouble text).1 ++ (splitDouble text).2 = text := by
  induction text using splitDouble.induct with
  | case1 => rfl
  | case2 d cs ih => exact congrArg ('\\' :: d :: ·) ih
  | case3 cs hno =>
    rw [splitDouble]
    · rw [if_pos rfl]
      rfl
    · exact hno
  | case4 c cs hno hne ih =>
    rw [splitDouble]
    · rw [if_neg hne]
      exact congrArg (c :: ·) ih
    · exact hno

/-- A value and what follows it are the text, but for the space before it. -/
theorem splitValue_append (raw : List Char) :
    ∃ gap, raw = gap ++ (splitValue raw).1 ++ (splitValue raw).2 ∧ ∀ c ∈ gap, isSpace c := by
  refine ⟨raw.takeWhile isSpace, ?_, fun c hc => List.mem_takeWhile_imp hc⟩
  conv_lhs => rw [← List.takeWhile_append_dropWhile (p := isSpace) (l := raw)]
  rw [List.append_assoc]
  congr 1
  unfold splitValue
  split
  · next h => exact h
  · next c cs h =>
    rw [h]
    split
    · exact congrArg (c :: ·) (splitSingle_append cs).symm
    · split
      · exact congrArg (c :: ·) (splitDouble_append cs).symm
      · exact (splitMarker_append (c :: cs)).symm

end SparkDeck.EnvFile
