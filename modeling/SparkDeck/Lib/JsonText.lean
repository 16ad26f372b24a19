import Mathlib.Data.List.Sort
import SparkDeck.Lib.Reading

/-!
# JSON texts as Python writes them

`Json.dumps` is `json.dumps(value, sort_keys=True, separators=(",", ":"), ensure_ascii=False)`: the
text of a value with the fields of every object in the order of their keys. A string is a list of
code points, lone surrogates among them; `encode` is `str.encode`, which such a string fails.

* A number is the text that `repr` writes of it, so that `1` and `1.0` are two values, as they are
  two texts.
* Two values are `Json.Same` when they differ in the order of object fields only; `object_reads` is
  that the text of an object ends where it ends.
* `encode_append_cases` carries this to bytes: of two texts whose bytes start one string, one
  continues the other.
-/

namespace JsonText

open Reading

/-! ## Strings -/

/-- A code point of a string. -/
structure CodePoint where
  val : ℕ
  lt : val < 0x110000
  deriving DecidableEq

abbrev Text := List CodePoint

theorem CodePoint.char_lt (c : Char) : c.toNat < 0x110000 := by
  have h : c.toNat < 0xd800 ∨ 0xdfff < c.toNat ∧ c.toNat < 0x110000 := c.valid
  omega

def CodePoint.ofChar (c : Char) : CodePoint := ⟨c.toNat, CodePoint.char_lt c⟩

theorem CodePoint.ofChar_inj {c d : Char} (h : ofChar c = ofChar d) : c = d :=
  Char.toNat_inj.mp (CodePoint.mk.inj h)

def ascii (s : String) : Text := s.toList.map CodePoint.ofChar

/-- Whether `s ≤ t`, code point by code point. -/
def lexLe : Text → Text → Bool
  | [], _ => true
  | _ :: _, [] => false
  | a :: s, b :: t => decide (a.val < b.val) || (decide (a.val = b.val) && lexLe s t)

/-- The bytes of a code point; a surrogate has none. -/
def CodePoint.utf8 (c : CodePoint) : Option (List UInt8) :=
  if h : c.val.isValidChar then some (String.utf8EncodeChar (Char.ofNatAux c.val h)) else none

/-- `text.encode()`. -/
def encode : Text → Option (List UInt8)
  | [] => some []
  | c :: t => do
    let head ← c.utf8
    let rest ← encode t
    some (head ++ rest)

/-- The escapes of one letter. -/
def escapes : List (ℕ × Char) :=
  [(0x5c, '\\'), (0x22, '"'), (0x08, 'b'), (0x0c, 'f'), (0x0a, 'n'), (0x0d, 'r'), (0x09, 't')]

def hexDigit (n : ℕ) : Char := if n < 10 then Char.ofNat (48 + n) else Char.ofNat (87 + n)

/-- A code point inside a string. -/
def escape (c : CodePoint) : Text :=
  match escapes.find? fun x => x.1 = c.val with
  | some x => [.ofChar '\\', .ofChar x.2]
  | none =>
    if c.val < 0x20 then
      ascii "\\u00" ++ [.ofChar (hexDigit (c.val / 16)), .ofChar (hexDigit (c.val % 16))]
    else [c]

def quote (t : Text) : Text := .ofChar '"' :: (t.flatMap escape ++ [.ofChar '"'])

/-! ## Values -/

def startsNumeral (c : Char) : Bool := c.isDigit || "-NI".toList.contains c

def inNumeral (c : Char) : Bool := c.isDigit || "+-.eNaInfity".toList.contains c

/-- What `repr` writes of an `int` or a `float`. -/
structure Numeral where
  first : Char
  rest : List Char
  first_ok : startsNumeral first
  rest_ok : rest.all inNumeral

inductive Json where
  | null
  | bool (b : Bool)
  | number (n : Numeral)
  | text (s : Text)
  | array (xs : List Json)
  | object (fields : List (Text × Json))

/-- `sorted(items)`: no two fields of an object have one key. -/
def sortFields {α : Type*} (fields : List (Text × α)) : List (Text × α) :=
  fields.insertionSort fun x y => lexLe x.1 y.1 = true

def bracketed (openMark closeMark : Char) (texts : List Text) : Text :=
  .ofChar openMark :: ([CodePoint.ofChar ','].intercalate texts ++ [.ofChar closeMark])

def field (x : Text × Text) : Text := quote x.1 ++ .ofChar ':' :: x.2

mutual

def Json.dumps : Json → Text
  | .null => ascii "null"
  | .bool b => ascii (if b then "true" else "false")
  | .number n => (n.first :: n.rest).map .ofChar
  | .text s => quote s
  | .array xs => bracketed '[' ']' (Json.dumpsItems xs)
  | .object fields => bracketed '\x7b' '\x7d' ((sortFields (Json.dumpsFields fields)).map field)

def Json.dumpsItems : List Json → List Text
  | [] => []
  | x :: xs => Json.dumps x :: Json.dumpsItems xs

def Json.dumpsFields : List (Text × Json) → List (Text × Text)
  | [] => []
  | (k, v) :: rest => (k, Json.dumps v) :: Json.dumpsFields rest

end

mutual

/-- The value with the fields of every object in the order of their keys. -/
def Json.canon : Json → Json
  | .null => .null
  | .bool b => .bool b
  | .number n => .number n
  | .text s => .text s
  | .array xs => .array (Json.canonItems xs)
  | .object fields => .object (sortFields (Json.canonFields fields))

def Json.canonItems : List Json → List Json
  | [] => []
  | x :: xs => Json.canon x :: Json.canonItems xs

def Json.canonFields : List (Text × Json) → List (Text × Json)
  | [] => []
  | (k, v) :: rest => (k, Json.canon v) :: Json.canonFields rest

end

/-- Equality of JSON values: the order of object fields does not count. -/
def Json.Same (x y : Json) : Prop := x.canon = y.canon

mutual

/-- The text of a value with its fields as they stand. -/
def Json.plain : Json → Text
  | .null => ascii "null"
  | .bool b => ascii (if b then "true" else "false")
  | .number n => (n.first :: n.rest).map .ofChar
  | .text s => quote s
  | .array xs => bracketed '[' ']' (Json.plainItems xs)
  | .object fields => bracketed '\x7b' '\x7d' ((Json.plainFields fields).map field)

def Json.plainItems : List Json → List Text
  | [] => []
  | x :: xs => Json.plain x :: Json.plainItems xs

def Json.plainFields : List (Text × Json) → List (Text × Text)
  | [] => []
  | (k, v) :: rest => (k, Json.plain v) :: Json.plainFields rest

end

/-! ## Strings end where they end -/

theorem escapes_inj : ∀ x ∈ escapes, ∀ y ∈ escapes, x.2 = y.2 → x.1 = y.1 := by decide

theorem escapes_letter : ∀ x ∈ escapes, x.2 ≠ 'u' := by decide

theorem hexDigit_inj {m n : ℕ} (hm : m < 16) (hn : n < 16) (h : hexDigit m = hexDigit n) :
    m = n := by
  have hall : ((List.range 16).all fun m => (List.range 16).all fun n =>
      decide (hexDigit m = hexDigit n → m = n)) := by decide
  have hrow := List.all_eq_true.mp hall m (List.mem_range.mpr hm)
  exact of_decide_eq_true (List.all_eq_true.mp hrow n (List.mem_range.mpr hn)) h

/-- What an escaped code point looks like. -/
theorem escape_cases (c : CodePoint) :
    (∃ x ∈ escapes, x.1 = c.val ∧ escape c = [.ofChar '\\', .ofChar x.2]) ∨
    (c.val < 0x20 ∧ escape c = .ofChar '\\' :: .ofChar 'u' :: .ofChar '0' :: .ofChar '0' ::
      [.ofChar (hexDigit (c.val / 16)), .ofChar (hexDigit (c.val % 16))]) ∨
    (c ≠ .ofChar '\\' ∧ c ≠ .ofChar '"' ∧ escape c = [c]) := by
  unfold escape
  cases hf : escapes.find? fun x => x.1 = c.val with
  | some x =>
    refine Or.inl ⟨x, List.mem_of_find?_eq_some hf, ?_, rfl⟩
    simpa using List.find?_some hf
  | none =>
    have hnone : ∀ x ∈ escapes, ¬ x.1 = c.val := by simpa using List.find?_eq_none.mp hf
    by_cases hc : c.val < 0x20
    · exact Or.inr (Or.inl ⟨hc, if_pos hc⟩)
    · refine Or.inr (Or.inr ⟨?_, ?_, if_neg hc⟩)
      · rintro rfl
        exact hnone (0x5c, '\\') (by decide) rfl
      · rintro rfl
        exact hnone (0x22, '"') (by decide) rfl

theorem escape_head (c : CodePoint) : ∃ x r, escape c = x :: r ∧ x ≠ .ofChar '"' := by
  obtain ⟨x, -, -, h⟩ | ⟨-, h⟩ | ⟨-, hc, h⟩ := escape_cases c
  · exact ⟨_, _, h, by decide⟩
  · exact ⟨_, _, h, by decide⟩
  · exact ⟨_, _, h, hc⟩

theorem escape_reads (c : CodePoint) : Reads Anything escape c := by
  have hval : ∀ {c d : CodePoint}, c.val = d.val → c = d := by
    rintro ⟨m, hm⟩ ⟨n, hn⟩ rfl
    rfl
  intro d s t _ _ heq
  obtain ⟨x, hx, hxc, h⟩ | ⟨hc, h⟩ | ⟨hc, -, h⟩ := escape_cases c <;>
    obtain ⟨y, hy, hyd, h'⟩ | ⟨hd, h'⟩ | ⟨hd, -, h'⟩ := escape_cases d <;>
    rw [h, h'] at heq
  · have hl := (List.cons.inj heq).2
    have hxy := CodePoint.ofChar_inj (List.cons.inj hl).1
    exact ⟨hval (hxc ▸ hyd ▸ escapes_inj x hx y hy hxy), (List.cons.inj hl).2⟩
  · have hl := (List.cons.inj (List.cons.inj heq).2).1
    exact absurd (CodePoint.ofChar_inj hl) (escapes_letter x hx)
  · exact absurd (List.cons.inj heq).1.symm hd
  · have hl := (List.cons.inj (List.cons.inj heq).2).1
    exact absurd (CodePoint.ofChar_inj hl).symm (escapes_letter y hy)
  · have hl := (List.cons.inj (List.cons.inj (List.cons.inj (List.cons.inj heq).2).2).2).2
    obtain ⟨hhigh, hl⟩ := List.cons.inj hl
    obtain ⟨hlow, hl⟩ := List.cons.inj hl
    have hdiv := hexDigit_inj (by omega) (by omega) (CodePoint.ofChar_inj hhigh)
    have hmod := hexDigit_inj (by omega) (by omega) (CodePoint.ofChar_inj hlow)
    exact ⟨hval (by omega), hl⟩
  · exact absurd (List.cons.inj heq).1.symm hd
  · exact absurd (List.cons.inj heq).1 hc
  · exact absurd (List.cons.inj heq).1 hc
  · exact ⟨(List.cons.inj heq).1, (List.cons.inj heq).2⟩

theorem quote_reads (t : Text) : Reads Anything quote t := by
  intro u r s _ _ heq
  exact reads_closed escape_reads escape_head t u r s trivial trivial (List.cons.inj heq).2

/-! ## Values end where they end -/

inductive Kind where
  | null | true | false | number | text | array | object
  deriving DecidableEq

def Json.kind : Json → Kind
  | .null => .null
  | .bool true => .true
  | .bool false => .false
  | .number _ => .number
  | .text _ => .text
  | .array _ => .array
  | .object _ => .object

/-- The kind of the values whose text starts with `c`. -/
def kindOf (c : Char) : Kind :=
  if c = 'n' then .null else if c = 't' then .true else if c = 'f' then .false
  else if c = '"' then .text else if c = '[' then .array else if c = '\x7b' then .object
  else .number

theorem kindOf_numeral {c : Char} (h : startsNumeral c) : kindOf c = .number := by
  unfold kindOf
  repeat' split
  all_goals first
    | rfl
    | subst c
      cases h

theorem plain_head (j : Json) : ∃ c r, j.plain = .ofChar c :: r ∧ kindOf c = j.kind := by
  cases j with
  | null => exact ⟨'n', ascii "ull", by decide, by decide⟩
  | bool b =>
    cases b with
    | false => exact ⟨'f', ascii "alse", by decide, by decide⟩
    | true => exact ⟨'t', ascii "rue", by decide, by decide⟩
  | number n => exact ⟨n.first, _, rfl, kindOf_numeral n.first_ok⟩
  | text t => exact ⟨'"', _, rfl, rfl⟩
  | array xs => exact ⟨'[', _, rfl, rfl⟩
  | object fields => exact ⟨'\x7b', _, rfl, rfl⟩

variable {s t : Text}

theorem plain_kind {j k : Json} (h : j.plain ++ s = k.plain ++ t) : j.kind = k.kind := by
  obtain ⟨c, r, hj, hc⟩ := plain_head j
  obtain ⟨d, u, hk, hd⟩ := plain_head k
  rw [hj, hk] at h
  rw [← hc, ← hd, CodePoint.ofChar_inj (List.cons.inj h).1]

/-- What may follow a value: nothing a number goes on with. -/
def Ends (s : Text) : Prop := ∀ x ∈ s.head?, ¬ ∃ c, inNumeral c ∧ x = .ofChar c

theorem ends_cons {c : Char} {s : Text} (hc : inNumeral c = false) : Ends (.ofChar c :: s) := by
  rintro x hx ⟨d, hd, rfl⟩
  obtain rfl := CodePoint.ofChar_inj (Option.some.inj hx)
  rw [hc] at hd
  cases hd

theorem ends_of_marked {c d : Char} (hc : inNumeral c = false) (hd : inNumeral d = false)
    {s : Text} (h : Marked (.ofChar c) (.ofChar d) s) : Ends s := by
  obtain ⟨r, rfl | rfl⟩ := h
  · exact ends_cons hc
  · exact ends_cons hd

theorem startsNumeral_in {c : Char} (h : startsNumeral c) : inNumeral c := by
  unfold startsNumeral at h
  unfold inNumeral
  rw [Bool.or_eq_true] at h ⊢
  refine h.imp_right fun hc => ?_
  rw [List.contains_iff_mem] at hc ⊢
  have hall : ("-NI".toList.all fun c => "+-.eNaInfity".toList.contains c) = true := by decide
  exact List.contains_iff_mem.mp (List.all_eq_true.mp hall c hc)

theorem numeral_marks (n : Numeral) :
    ∀ x ∈ (n.first :: n.rest).map CodePoint.ofChar, ∃ c, inNumeral c ∧ x = .ofChar c := by
  intro x hx
  obtain ⟨c, hc, rfl⟩ := List.mem_map.mp hx
  refine ⟨c, ?_, rfl⟩
  rcases List.mem_cons.mp hc with rfl | hc
  · exact startsNumeral_in n.first_ok
  · exact List.all_eq_true.mp n.rest_ok c hc

theorem numeral_inj {m n : Numeral}
    (h : (m.first :: m.rest).map CodePoint.ofChar = (n.first :: n.rest).map CodePoint.ofChar) :
    m = n := by
  have hl := List.map_injective_iff.mpr (fun c d => CodePoint.ofChar_inj) h
  obtain ⟨hfirst, hrest⟩ := List.cons.inj hl
  cases m
  cases n
  simp only [Numeral.mk.injEq]
  exact ⟨hfirst, hrest⟩

theorem plainItems_eq (xs : List Json) : Json.plainItems xs = xs.map Json.plain := by
  induction xs with
  | nil => rfl
  | cons x xs ih =>
    unfold Json.plainItems
    rw [ih]
    rfl

/-- The text of one field. -/
def plainField (x : Text × Json) : Text := field (x.1, x.2.plain)

theorem plainFields_eq (fields : List (Text × Json)) :
    (Json.plainFields fields).map field = fields.map plainField := by
  induction fields with
  | nil => rfl
  | cons x fields ih =>
    unfold Json.plainFields
    rw [List.map_cons, ih]
    rfl

theorem plainField_head (x : Text × Json) :
    ∃ c r, plainField x = c :: r ∧ c ≠ CodePoint.ofChar '\x7d' :=
  ⟨_, _, rfl, by decide⟩

theorem plain_head_ne (j : Json) : ∃ c r, j.plain = c :: r ∧ c ≠ CodePoint.ofChar ']' := by
  cases j with
  | null => exact ⟨.ofChar 'n', ascii "ull", by decide, by decide⟩
  | bool b =>
    cases b with
    | false => exact ⟨.ofChar 'f', ascii "alse", by decide, by decide⟩
    | true => exact ⟨.ofChar 't', ascii "rue", by decide, by decide⟩
  | number n =>
    refine ⟨_, _, rfl, fun hclose => ?_⟩
    have hfirst := n.first_ok
    rw [CodePoint.ofChar_inj hclose] at hfirst
    cases hfirst
  | text t | array xs | object fields => exact ⟨_, _, rfl, by decide⟩

theorem plainField_reads {x : Text × Json} (hx : Reads Ends Json.plain x.2) :
    Reads Ends plainField x := by
  intro y s t hs ht heq
  unfold plainField field at heq
  simp only [List.append_assoc, List.cons_append] at heq
  obtain ⟨hkey, hrest⟩ := quote_reads x.1 y.1 _ _ trivial trivial heq
  obtain ⟨hvalue, hst⟩ := hx y.2 s t hs ht (List.cons.inj hrest).2
  exact ⟨Prod.ext hkey hvalue, hst⟩

theorem object_plain_reads {fields : List (Text × Json)}
    (hf : ∀ x ∈ fields, Reads Ends Json.plain x.2) :
    Reads Anything (fun l => (Json.object l).plain) fields := by
  intro others s t _ _ heq
  have hfields : ∀ x ∈ fields,
      Reads (Marked (CodePoint.ofChar ',') (.ofChar '\x7d')) plainField x :=
    fun x hx => (plainField_reads (hf x hx)).mono fun _ => ends_of_marked (by decide) (by decide)
  have hbody := (List.cons.inj heq).2
  rw [plainFields_eq, plainFields_eq] at hbody
  exact reads_separated (by decide) plainField_head fields hfields others s t trivial trivial hbody

mutual

theorem plain_reads : (j : Json) → Reads Ends Json.plain j := by
  intro j k s t hs ht heq
  have hkind := plain_kind heq
  cases j with
  | null =>
    cases k with
    | null => exact ⟨rfl, List.append_cancel_left heq⟩
    | bool b => cases b <;> cases hkind
    | _ => cases hkind
  | bool a =>
    cases k with
    | bool b =>
      cases a <;> cases b <;> first
        | exact ⟨rfl, List.append_cancel_left heq⟩
        | cases hkind
    | _ => cases a <;> cases hkind
  | number m =>
    cases k with
    | number n =>
      obtain ⟨htext, hst⟩ := span_unique (numeral_marks m) (numeral_marks n) hs ht heq
      exact ⟨congrArg Json.number (numeral_inj htext), hst⟩
    | bool b => cases b <;> cases hkind
    | _ => cases hkind
  | text u =>
    cases k with
    | text v =>
      obtain ⟨rfl, hst⟩ := quote_reads u v s t trivial trivial heq
      exact ⟨rfl, hst⟩
    | bool b => cases b <;> cases hkind
    | _ => cases hkind
  | array xs =>
    cases k with
    | array ys =>
      have hxs : ∀ x ∈ xs, Reads (Marked (CodePoint.ofChar ',') (.ofChar ']')) Json.plain x :=
        fun x hx => (items_read xs x hx).mono fun _ => ends_of_marked (by decide) (by decide)
      have hbody := (List.cons.inj heq).2
      rw [plainItems_eq, plainItems_eq] at hbody
      obtain ⟨rfl, hst⟩ := reads_separated (by decide) plain_head_ne xs hxs ys s t trivial trivial
        hbody
      exact ⟨rfl, hst⟩
    | bool b => cases b <;> cases hkind
    | _ => cases hkind
  | object fields =>
    cases k with
    | object others =>
      obtain ⟨rfl, hst⟩ := object_plain_reads (fields_read fields) others s t trivial trivial heq
      exact ⟨rfl, hst⟩
    | bool b => cases b <;> cases hkind
    | _ => cases hkind

theorem items_read : (xs : List Json) → ∀ x ∈ xs, Reads Ends Json.plain x
  | [] => fun _ hx => nomatch hx
  | y :: ys => fun x hx =>
    (List.mem_cons.mp hx).elim (fun h => h ▸ plain_reads y) (items_read ys x)

theorem fields_read : (fields : List (Text × Json)) → ∀ x ∈ fields, Reads Ends Json.plain x.2
  | [] => fun _ hx => nomatch hx
  | (_, v) :: rest => fun x hx =>
    (List.mem_cons.mp hx).elim (fun h => h ▸ plain_reads v) (fields_read rest x)

end

/-! ## The order of fields -/

theorem sortFields_map {α β : Type*} (f : α → β) (fields : List (Text × α)) :
    (sortFields fields).map (fun x => (x.1, f x.2)) =
      sortFields (fields.map fun x => (x.1, f x.2)) :=
  List.map_insertionSort _ _ _ fields fun _ _ _ _ => Iff.rfl

theorem plainFields_map (fields : List (Text × Json)) :
    Json.plainFields fields = fields.map fun x => (x.1, x.2.plain) := by
  induction fields with
  | nil => rfl
  | cons x fields ih =>
    unfold Json.plainFields
    rw [ih]
    rfl

mutual

theorem dumps_eq : (j : Json) → j.dumps = j.canon.plain
  | .null => rfl
  | .bool _ => rfl
  | .number _ => rfl
  | .text _ => rfl
  | .array xs => by
    unfold Json.dumps Json.canon Json.plain
    rw [dumpsItems_eq xs]
  | .object fields => by
    unfold Json.dumps Json.canon Json.plain
    rw [dumpsFields_eq fields, plainFields_map, plainFields_map, sortFields_map]

theorem dumpsItems_eq : (xs : List Json) →
    Json.dumpsItems xs = Json.plainItems (Json.canonItems xs)
  | [] => rfl
  | x :: xs => by
    unfold Json.dumpsItems Json.canonItems Json.plainItems
    rw [dumps_eq x, dumpsItems_eq xs]

theorem dumpsFields_eq : (fields : List (Text × Json)) →
    Json.dumpsFields fields = Json.plainFields (Json.canonFields fields)
  | [] => rfl
  | (k, v) :: rest => by
    unfold Json.dumpsFields Json.canonFields Json.plainFields
    rw [dumps_eq v, dumpsFields_eq rest]

end

theorem dumps_of_same {x y : Json} (h : x.Same y) : x.dumps = y.dumps := by
  rw [dumps_eq, dumps_eq, h]

variable {fields others : List (Text × Json)}

/-- The text of an object ends where it ends. -/
theorem object_reads (h : (Json.object fields).dumps ++ s = (Json.object others).dumps ++ t) :
    (Json.object fields).Same (.object others) ∧ s = t := by
  rw [dumps_eq, dumps_eq] at h
  obtain ⟨hfields, hst⟩ :=
    object_plain_reads (fields_read _) _ s t trivial trivial h
  exact ⟨congrArg Json.object hfields, hst⟩

/-! ## Bytes -/

/-- A code point's bytes are not the start of another's. -/
theorem utf8_reads {c d : CodePoint} {a b s t : List UInt8} (hc : c.utf8 = some a)
    (hd : d.utf8 = some b) (h : a ++ s = b ++ t) : c = d ∧ s = t := by
  unfold CodePoint.utf8 at hc hd
  obtain ⟨hcv, hc⟩ := Option.dite_none_right_eq_some.mp hc
  obtain ⟨hdv, hd⟩ := Option.dite_none_right_eq_some.mp hd
  cases hc
  cases hd
  have hchar : Char.ofNatAux c.val hcv = Char.ofNatAux d.val hdv := by
    have hleft := ByteArray.utf8DecodeChar?_utf8EncodeChar_append
      (b := s.toByteArray) (c := Char.ofNatAux c.val hcv)
    have hright := ByteArray.utf8DecodeChar?_utf8EncodeChar_append
      (b := t.toByteArray) (c := Char.ofNatAux d.val hdv)
    rw [← List.toByteArray_append, h, List.toByteArray_append, hright] at hleft
    exact (Option.some.inj hleft).symm
  have hval : c.val = d.val := congrArg Char.toNat hchar
  have hcd : c = d := by
    cases c
    cases d
    simpa using hval
  subst hcd
  exact ⟨rfl, List.append_cancel_left h⟩

theorem encode_cons {c : CodePoint} {t : Text} {a : List UInt8} (h : encode (c :: t) = some a) :
    ∃ x y, c.utf8 = some x ∧ encode t = some y ∧ a = x ++ y := by
  unfold encode at h
  cases hc : c.utf8 with
  | none =>
    rw [hc] at h
    cases h
  | some x =>
    cases ht : encode t with
    | none =>
      rw [hc, ht] at h
      cases h
    | some y =>
      rw [hc, ht] at h
      exact ⟨x, y, rfl, rfl, (Option.some.inj h).symm⟩

/-- Two texts whose bytes start one string: one continues the other. -/
theorem encode_append_cases {a b r u : List UInt8} (hs : encode s = some a) (ht : encode t = some b)
    (h : a ++ r = b ++ u) :
    (∃ v w, t = s ++ v ∧ encode v = some w ∧ r = w ++ u) ∨
      (∃ v w, s = t ++ v ∧ encode v = some w ∧ u = w ++ r) := by
  induction s generalizing t a b with
  | nil =>
    cases hs
    exact Or.inl ⟨t, b, rfl, ht, h⟩
  | cons c s ih =>
    cases t with
    | nil =>
      cases ht
      exact Or.inr ⟨c :: s, a, rfl, hs, h.symm⟩
    | cons d t =>
      obtain ⟨x, y, hc, hs', rfl⟩ := encode_cons hs
      obtain ⟨z, w, hd, ht', rfl⟩ := encode_cons ht
      rw [List.append_assoc, List.append_assoc] at h
      obtain ⟨rfl, hrest⟩ := utf8_reads hc hd h
      obtain ⟨v, b', rfl, hv, hr⟩ | ⟨v, b', rfl, hv, hr⟩ := ih hs' ht' hrest
      · exact Or.inl ⟨v, b', rfl, hv, hr⟩
      · exact Or.inr ⟨v, b', rfl, hv, hr⟩

/-- The bytes of an object end where they end. -/
theorem object_bytes_read {a b r u : List UInt8} (ha : encode (Json.object fields).dumps = some a)
    (hb : encode (Json.object others).dumps = some b) (h : a ++ r = b ++ u) :
    (Json.object fields).Same (.object others) ∧ r = u := by
  obtain ⟨v, w, hv, hw, hr⟩ | ⟨v, w, hv, hw, hr⟩ := encode_append_cases ha hb h
  · obtain ⟨hsame, rfl⟩ :=
      object_reads (hv.symm.trans (List.append_nil _).symm)
    cases hw
    exact ⟨hsame, hr⟩
  · obtain ⟨hsame, rfl⟩ := object_reads (hv.symm.trans (List.append_nil _).symm)
    cases hw
    exact ⟨hsame.symm, hr.symm⟩

end JsonText
