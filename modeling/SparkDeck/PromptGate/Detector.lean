import SparkDeck.Lib.Lines
import SparkDeck.Llama.Log

/-!
# The output detector

Model of `_OutputDetector.feed` and of `_PromptStream._produce` as its caller
(`sparkdeck/prompt_gate.py:152-182`, `:209-221`), which feeds no chunk once one has been reported.
`loads` is `json.loads` of a text without the white space around it.

* `detected_iff`: however a text without long lines is cut, the chunk with the end of the first line
  that carries output is reported, and no other, if and only if no line before it is `Refused`.
* `choices_raise`: a line whose `choices` is a number ends the stream.
-/

namespace SparkDeck.PromptGate.Detector

inductive Json where
  | null
  | bool (b : Bool)
  /-- A number, which is zero or not. -/
  | number (zero : Bool)
  | text (s : String)
  | array (xs : List Json)
  | object (fields : List (String × Json))

def Json.truthy : Json → Bool
  | .null => false
  | .bool b => b
  | .number zero => !zero
  | .text s => s ≠ ""
  | .array xs => !xs.isEmpty
  | .object fields => !fields.isEmpty

inductive Loaded where
  /-- A `ValueError`. -/
  | invalid
  /-- Another exception, such as a `RecursionError`. -/
  | raised
  | value (j : Json)

/-- `fields.get(key)`, unless it is missing or false. -/
def get (fields : List (String × Json)) (key : String) : Option Json :=
  (fields.lookup key).filter Json.truthy

def hasOutput : Json → Bool
  | .object choice =>
    (get choice "text").isSome ||
      match (get choice "delta").or (get choice "message") with
      | some (.object delta) =>
        ["content", "reasoning_content", "reasoning", "tool_calls", "function_call"].any fun key =>
          (get delta key).isSome
      | _ => false
  | _ => false

/-- `feed` goes on, returns `True`, or raises. -/
inductive Report where
  | nothing
  | output
  | raised
  deriving DecidableEq

variable (loads : List Char → Loaded)

/-- A line of the loop of `feed`. -/
def report (line : List Char) : Report :=
  if "data:".toList <+: line then
    match loads (line.drop 5) with
    | .invalid => .nothing
    | .raised => .raised
    | .value (.object payload) =>
      match get payload "choices" with
      | some (.array choices) => if choices.any hasOutput then .output else .nothing
      | some (.bool _) | some (.number _) => .raised
      -- the keys of an object, or the characters of a string, are no objects
      | _ => .nothing
    | .value _ => .nothing
  else .nothing

/-- The loop of `feed`, from within a line. -/
def scan : List Char → List Char → Report × List Char
  | line, [] => (.nothing, line)
  | line, c :: text =>
    if c = '\n' then
      match report loads line with
      | .nothing => scan [] text
      | r => (r, text)
    else scan (line ++ [c]) text

structure State where
  /-- What the decoder keeps. -/
  kept : List UInt8
  pending : List Char

inductive Chunk where
  | bytes (b : List UInt8)
  | text (t : List Char)

def State.decode (s : State) : Chunk → List Char × List UInt8
  | .bytes b => b.foldl Llama.utf8.step ([], s.kept)
  | .text t => (t, s.kept)

def State.feed (s : State) (chunk : Chunk) : Report × State :=
  let (text, kept) := s.decode chunk
  match scan loads [] (s.pending ++ text) with
  | (.nothing, pending) =>
    (.nothing, ⟨kept, if 1024 * 1024 < pending.length then [] else pending⟩)
  | (r, pending) => (r, ⟨kept, pending⟩)

/-- `_PromptStream._produce`: the first chunk that is reported or makes `feed` raise. -/
def produce : State → List Chunk → Option (ℕ × Report)
  | _, [] => none
  | s, chunk :: chunks =>
    match s.feed loads chunk with
    | (.nothing, s) => (produce s chunks).map fun x => (x.1 + 1, x.2)
    | (r, _) => some (0, r)

/-! ## Cuts and lines -/

def Chunk.sent : Chunk → List UInt8
  | .bytes b => b
  | .text t => Utf8.encode t

def sent (chunks : List Chunk) : List UInt8 := (chunks.map Chunk.sent).flatten

/-- The chunks are the bytes of the text, or its characters. -/
def Cutting (text : List Char) (chunks : List Chunk) : Prop :=
  (∃ bs : List (List UInt8), chunks = bs.map .bytes ∧ bs.flatten = Utf8.encode text) ∨
    ∃ ts : List (List Char), chunks = ts.map .text ∧ ts.flatten = text

/-- The text up to the end of the first line that meets `p`. -/
def upTo (p : List Char → Bool) : List Char → List Char → Option (List Char)
  | _, [] => none
  | line, c :: text =>
    if c = '\n' then if p line then some [c] else (upTo p [] text).map (c :: ·)
    else (upTo p (line ++ [c]) text).map (c :: ·)

/-- No line is longer than 1 MiB. -/
def Short (text : List Char) : Prop := ∀ l, l <:+: text → '\n' ∉ l → l.length ≤ 1024 * 1024

/-- The chunk with the end of the first line that carries output is reported, and nothing else. -/
def Detects (text : List Char) (chunks : List Chunk) : Prop :=
  ∀ k r, produce loads ⟨[], []⟩ chunks = some (k, r) ↔ r = .output ∧
    ∃ pre, upTo (report loads · = .output) [] text = some pre ∧
      Utf8.encode pre <+: sent (chunks.take (k + 1)) ∧ ¬Utf8.encode pre <+: sent (chunks.take k)

/-- `json.loads` fails on the line as no JSON text makes it fail, or `choices` is a number or `true`. -/
def Refused (line : List Char) : Prop :=
  "data:".toList <+: line ∧ (loads (line.drop 5) = .raised ∨
    ∃ payload, loads (line.drop 5) = .value (.object payload) ∧
      ∃ x, get payload "choices" = some x ∧ ((∃ b, x = .bool b) ∨ ∃ zero, x = .number zero))

/-- The lines before the first one that carries output. -/
def linesBefore (text : List Char) : List (List Char) :=
  (Lines.feed '\n' [] text).1.takeWhile (report loads · ≠ .output)

variable {loads} {line text a b t : List Char} {p : List Char → Bool} {r : Report} {k : ℕ}

theorem refused_iff : Refused loads line ↔ report loads line = .raised := by
  unfold Refused report
  by_cases hp : "data:".toList <+: line
  · simp only [hp, true_and, if_true]
    cases loads (line.drop 5) with
    | invalid => simp
    | raised => simp
    | value j =>
      cases j with
      | object payload =>
        cases hg : get payload "choices" with
        | none => simp [hg]
        | some x =>
          cases x with
          | array xs => by_cases hx : xs.any hasOutput = true <;> simp [hg, hx]
          | _ => simp [hg]
      | _ => simp
  · simp only [hp, false_and, if_false, reduceCtorEq]

/-! ## One piece of text -/

theorem scan_append (line a b : List Char) :
    scan loads line (a ++ b) =
      if (scan loads line a).1 = .nothing then scan loads (scan loads line a).2 b
      else ((scan loads line a).1, (scan loads line a).2 ++ b) := by
  induction a generalizing line with
  | nil => rfl
  | cons c a ih =>
    rw [List.cons_append, scan, scan]
    split
    · cases report loads line with
      | nothing => exact ih []
      | output | raised => rfl
    · exact ih (line ++ [c])

theorem scan_line (h : '\n' ∉ a) : scan loads line a = (.nothing, line ++ a) := by
  induction a generalizing line with
  | nil => rw [scan, List.append_nil]
  | cons c a ih =>
    rw [List.mem_cons, not_or] at h
    rw [scan, if_neg fun hc => h.1 hc.symm, ih h.2, List.append_assoc]
    rfl

/-- What is kept is the part of the last line that is there. -/
theorem scan_kept (hl : '\n' ∉ line) (h : scan loads line a = (.nothing, b)) :
    '\n' ∉ b ∧ b <:+ line ++ a := by
  induction a generalizing line with
  | nil =>
    cases h
    exact ⟨hl, by simp⟩
  | cons c a ih =>
    rw [scan] at h
    split at h
    case isTrue =>
      cases hr : report loads line with
      | nothing =>
        rw [hr] at h
        obtain ⟨hb, hsuf⟩ := ih List.not_mem_nil h
        exact ⟨hb, hsuf.trans ((List.suffix_cons c a).trans (List.suffix_append line _))⟩
      | output | raised =>
        rw [hr] at h
        cases h
    case isFalse hc =>
      obtain ⟨hb, hsuf⟩ := ih (by simpa using ⟨hl, Ne.symm hc⟩) h
      exact ⟨hb, by rwa [List.append_assoc] at hsuf⟩

/-- The first report of a text is that of its first line with one. -/
theorem scan_fst : (scan loads line a).1 =
    ((((Lines.feed '\n' line a).1.map (report loads)).find? (· ≠ .nothing)).getD .nothing) := by
  induction a generalizing line with
  | nil => rfl
  | cons c a ih =>
    rw [scan, Lines.feed]
    split
    · cases hr : report loads line with
      | nothing => simpa [hr] using ih
      | output | raised => simp [hr]
    · exact ih

theorem first_ne_raised {rs : List Report} :
    (rs.find? (· ≠ .nothing)).getD .nothing ≠ .raised ↔
      ∀ r ∈ rs.takeWhile (· ≠ .output), r ≠ .raised := by
  induction rs with
  | nil => simp
  | cons r rs ih => cases r <;> simp_all

theorem scan_ne_raised :
    (scan loads [] text).1 ≠ .raised ↔ ∀ line ∈ linesBefore loads text, ¬Refused loads line := by
  rw [scan_fst, first_ne_raised, List.takeWhile_map, List.forall_mem_map]
  simp only [refused_iff]
  rfl

/-! ## The line that carries output -/

theorem upTo_append {pre : List Char} (h : upTo p line a = some pre) :
    upTo p line (a ++ b) = some pre ∧ pre <+: a := by
  induction a generalizing line pre with
  | nil => cases h
  | cons c a ih =>
    have hrest : ∀ {line'}, (upTo p line' a).map (c :: ·) = some pre →
        (upTo p line' (a ++ b)).map (c :: ·) = some pre ∧ pre <+: c :: a := by
      intro line' hm
      obtain ⟨pre', hpre, rfl⟩ := Option.map_eq_some_iff.mp hm
      obtain ⟨happ, hpref⟩ := ih hpre
      exact ⟨by rw [happ]; rfl, List.cons_prefix_cons.mpr ⟨rfl, hpref⟩⟩
    rw [List.cons_append, upTo]
    rw [upTo] at h
    split at h
    case isTrue hc =>
      simp only [if_pos hc]
      split at h
      case isTrue hp =>
        cases h
        exact ⟨if_pos hp, List.cons_prefix_cons.mpr ⟨rfl, List.nil_prefix⟩⟩
      case isFalse hp =>
        rw [if_neg hp]
        exact hrest h
    case isFalse hc =>
      rw [if_neg hc]
      exact hrest h

theorem upTo_self {pre : List Char} (h : upTo p line a = some pre) : upTo p line pre = some pre := by
  induction a generalizing line pre with
  | nil => cases h
  | cons c a ih =>
    rw [upTo] at h
    split at h
    case isTrue hc =>
      split at h
      case isTrue hp =>
        cases h
        rw [upTo, if_pos hc, if_pos hp]
      case isFalse hp =>
        obtain ⟨pre', hpre, rfl⟩ := Option.map_eq_some_iff.mp h
        rw [upTo, if_pos hc, if_neg hp, ih hpre]
        rfl
    case isFalse hc =>
      obtain ⟨pre', hpre, rfl⟩ := Option.map_eq_some_iff.mp h
      rw [upTo, if_neg hc, ih hpre]
      rfl

/-- A start of the text has such a line when it has all of the first one. -/
theorem upTo_isSome (ha : a <+: text) :
    (upTo p [] a).isSome ↔ ∃ pre, upTo p [] text = some pre ∧ pre <+: a := by
  obtain ⟨b, rfl⟩ := ha
  constructor
  · intro h
    obtain ⟨pre, h⟩ := Option.isSome_iff_exists.mp h
    exact ⟨pre, upTo_append h⟩
  · rintro ⟨pre, h, c, rfl⟩
    exact Option.isSome_of_eq_some (upTo_append (upTo_self h)).1

theorem scan_output (h : (scan loads line a).1 ≠ .raised) :
    (scan loads line a).1 = .output ↔ (upTo (report loads · = .output) line a).isSome := by
  induction a generalizing line with
  | nil => simp [scan, upTo]
  | cons c a ih =>
    rw [scan] at h ⊢
    rw [upTo]
    split
    case isTrue hc =>
      rw [if_pos hc] at h
      cases hr : report loads line with
      | nothing =>
        rw [hr] at h
        simpa using ih h
      | output => simp
      | raised => exact absurd (by rw [hr]) h
    case isFalse hc =>
      rw [if_neg hc] at h
      simpa using ih h

theorem scan_prefix_ne (ha : a <+: text) (h : (scan loads [] text).1 ≠ .raised) :
    (scan loads [] a).1 ≠ .raised := by
  obtain ⟨b, rfl⟩ := ha
  intro hr
  rw [scan_append, hr] at h
  exact h rfl

/-! ## The pieces of a text -/

variable {kept : List UInt8}

theorem produce_cons {s : State} {chunk : Chunk} (h : s.decode chunk = (t, kept))
    (chunks : List Chunk) :
    produce loads s (chunk :: chunks) =
      match scan loads [] (s.pending ++ t) with
      | (.nothing, b) => (produce loads ⟨kept, if 1024 * 1024 < b.length then [] else b⟩ chunks).map
          fun x => (x.1 + 1, x.2)
      | (r, _) => some (0, r) := by
  rw [produce]
  unfold State.feed
  simp only [h]
  cases scan loads [] (s.pending ++ t) with
  | mk r b => cases r <;> rfl

theorem produce_texts {ts : List (List Char)} (hl : '\n' ∉ line) (hs : Short (line ++ ts.flatten)) :
    produce loads ⟨[], line⟩ (ts.map .text) = some (k, r) ↔ r ≠ .nothing ∧
      (scan loads line (ts.take (k + 1)).flatten).1 = r ∧
      (scan loads line (ts.take k).flatten).1 = .nothing := by
  induction ts generalizing line k with
  | nil =>
    simp only [List.map_nil, produce, List.take_nil, List.flatten_nil, scan, reduceCtorEq, false_iff]
    exact fun h => h.1 h.2.1.symm
  | cons t ts ih =>
    have hwhole : scan loads [] (line ++ t) = scan loads line t := by
      rw [scan_append, scan_line hl]
      rfl
    rw [List.map_cons, produce_cons (t := t) rfl]
    simp only [hwhole]
    rw [List.flatten_cons] at hs
    have hzero : scan loads line ((t :: ts).take 0).flatten = (.nothing, line) := rfl
    have happ : ∀ n, scan loads line ((t :: ts).take (n + 1)).flatten =
        scan loads line (t ++ (ts.take n).flatten) := fun n => by
      rw [List.take_succ_cons, List.flatten_cons]
    cases hscan : scan loads line t with
    | mk r₀ b =>
      cases r₀ with
      | nothing =>
        obtain ⟨hb, hsuf⟩ := scan_kept hl hscan
        have hpart : b ++ ts.flatten <:+: line ++ (t ++ ts.flatten) := by
          obtain ⟨front, hfront⟩ := hsuf
          rw [← List.append_assoc, ← hfront, List.append_assoc]
          exact (List.suffix_append front _).isInfix
        have hfit : ¬1024 * 1024 < b.length :=
          Nat.not_lt.mpr (hs b ((List.prefix_append b _).isInfix.trans hpart) hb)
        have hnext : ∀ n, scan loads line (t ++ (ts.take n).flatten) =
            scan loads b (ts.take n).flatten := fun n => by
          rw [scan_append, hscan]
          rfl
        simp only [if_neg hfit, happ, hnext]
        cases k with
        | zero =>
          constructor
          · intro h
            obtain ⟨x, -, hx⟩ := Option.map_eq_some_iff.mp h
            cases hx
          · rintro ⟨hr, hr', -⟩
            exact absurd hr'.symm hr
        | succ k =>
          rw [happ, hnext, ← ih hb fun l hl => hs l (hl.trans hpart)]
          constructor
          · intro h
            obtain ⟨x, hx, he⟩ := Option.map_eq_some_iff.mp h
            cases he
            exact hx
          · intro h
            rw [h]
            rfl
      | output | raised =>
        simp only [happ, scan_append, hscan, reduceCtorEq, if_false, Option.some.injEq,
          Prod.mk.injEq]
        cases k with
        | zero =>
          simp only [hzero, true_and, and_true]
          exact ⟨by rintro rfl; exact ⟨nofun, rfl⟩, And.right⟩
        | succ k =>
          simp only [happ, scan_append, hscan, reduceCtorEq, if_false, and_false, iff_false]
          exact fun h => by cases h.1

/-! ## The pieces of the bytes -/

theorem whole_start {c : Char} {l tail : List UInt8} (h : l ++ tail = String.utf8EncodeChar c) :
    Llama.utf8.whole l = if tail = [] then some c else none := by
  unfold Llama.utf8
  split
  case isTrue ht =>
    rw [ht, List.append_nil] at h
    have hdecode := ByteArray.utf8DecodeChar?_utf8EncodeChar_append (b := ByteArray.empty) (c := c)
    rw [ByteArray.append_empty] at hdecode
    simp only [h, hdecode]
    exact if_pos (by rw [String.length_utf8EncodeChar]; exact decide_eq_true rfl)
  case isFalse ht =>
    simp only [Utf8.decodeChar_start ht h]
    rfl

/-- The decoder, from the first byte of a character on. -/
theorem run_char {c : Char} {kept tail : List UInt8} (hne : kept ≠ [])
    (h : kept ++ tail = String.utf8EncodeChar c) (out : List Char) :
    kept.foldl Llama.utf8.step (out, []) = if tail = [] then (out ++ [c], []) else (out, kept) := by
  induction kept using List.reverseRecOn generalizing tail with
  | nil => exact absurd rfl hne
  | append_singleton kept b ih =>
    have hwhole := whole_start h
    have hbefore : kept.foldl Llama.utf8.step (out, []) = (out, kept) := by
      by_cases hk : kept = []
      · rw [hk]
        rfl
      · have hrec : kept ++ b :: tail = String.utf8EncodeChar c := by
          rw [← h, List.append_assoc]
          rfl
        rw [ih hk hrec, if_neg (List.cons_ne_nil b tail)]
    rw [List.foldl_append, hbefore, List.foldl_cons, List.foldl_nil]
    by_cases ht : tail = []
    · rw [if_pos ht] at hwhole ⊢
      cases kept <;>
        simp_all [Lossy.Code.step, Lossy.Code.push, Lossy.Code.continues, Lossy.Code.flush,
          Lossy.Code.first]
    · have hstart : Llama.utf8.start (kept ++ [b]) := Utf8.truncated_of_start hne ht h
      rw [if_neg ht] at hwhole ⊢
      cases kept <;>
        simp_all [Lossy.Code.step, Lossy.Code.push, Lossy.Code.continues, Lossy.Code.flush,
          Lossy.Code.first]

theorem run_encode {rest : List Char} (hcut : Utf8.Cut kept rest) (text out : List Char) :
    (Utf8.encode text ++ kept).foldl Llama.utf8.step (out, []) = (out ++ text, kept) := by
  induction text generalizing out with
  | nil =>
    rw [List.append_nil]
    obtain rfl | ⟨c, _, tail, -, hstart, htail⟩ := hcut
    · rfl
    · by_cases hk : kept = []
      · rw [hk]
        rfl
      · exact (run_char hk hstart out).trans (if_neg htail)
  | cons c text ih =>
    have hchar := run_char (String.utf8EncodeChar_ne_nil (c := c)) (List.append_nil _) out
    rw [if_pos rfl] at hchar
    rw [Utf8.encode_cons, List.append_assoc, List.foldl_append, hchar, ih, List.append_assoc]
    rfl

/-- Whatever the chunks, the decoder makes a text of each, and together they are the text. -/
theorem produce_bytes {rest : List Char} (hcut : Utf8.Cut kept rest) (line : List Char)
    {bs : List (List UInt8)} (h : kept ++ bs.flatten = Utf8.encode rest) :
    ∃ ts : List (List Char), ts.flatten = rest ∧
      produce loads ⟨kept, line⟩ (bs.map .bytes) = produce loads ⟨[], line⟩ (ts.map .text) ∧
      ∀ k, ∃ kept', kept ++ (bs.take k).flatten = Utf8.encode (ts.take k).flatten ++ kept' ∧
        Utf8.Cut kept' (ts.drop k).flatten := by
  induction bs generalizing kept rest line with
  | nil =>
    rw [List.flatten_nil, List.append_nil] at h
    obtain ⟨rfl, rfl⟩ := hcut.eq_nil h
    exact ⟨[], rfl, rfl, fun k => ⟨[], by simp [Utf8.encode], Or.inl rfl⟩⟩
  | cons chunk bs ih =>
    rw [List.flatten_cons, ← List.append_assoc] at h
    obtain ⟨done, rest', kept', rfl, hbytes, hkept, hcut'⟩ := Utf8.exists_cut h
    have hdecode : State.decode ⟨kept, line⟩ (.bytes chunk) = (done, kept') := by
      have hbefore : kept.foldl Llama.utf8.step ([], []) = ([], kept) := run_encode hcut [] []
      have hafter := run_encode hcut' done []
      rw [← hbytes, List.foldl_append, hbefore] at hafter
      exact hafter
    cases hscan : scan loads [] (line ++ done) with
    | mk r b =>
      obtain ⟨ts, hts, hsame, hparts⟩ :=
        ih hcut' (if 1024 * 1024 < b.length then [] else b) hkept
      refine ⟨done :: ts, by rw [List.flatten_cons, hts], ?_, fun k => ?_⟩
      · rw [List.map_cons, List.map_cons, produce_cons hdecode,
          produce_cons (t := done) rfl]
        rw [hscan]
        cases r with
        | nothing => exact congrArg (Option.map _) hsame
        | output | raised => rfl
      · cases k with
        | zero => exact ⟨kept, by simp [Utf8.encode], by simpa [hts] using hcut⟩
        | succ k =>
          obtain ⟨kept'', heq, hcut''⟩ := hparts k
          refine ⟨kept'', ?_, hcut''⟩
          rw [List.take_succ_cons, List.take_succ_cons, List.flatten_cons, List.flatten_cons,
            ← List.append_assoc, hbytes, List.append_assoc, heq, ← List.append_assoc]
          simp [Utf8.encode]

theorem sent_bytes (bs : List (List UInt8)) : sent (bs.map .bytes) = bs.flatten := by
  rw [sent, List.map_map]
  exact congrArg List.flatten (List.map_id bs)

theorem sent_text (ts : List (List Char)) : sent (ts.map .text) = Utf8.encode ts.flatten := by
  induction ts with
  | nil => rfl
  | cons t ts ih =>
    rw [List.flatten_cons, Utf8.encode, List.flatMap_append]
    exact congrArg _ ih

/-- The chunks are decoded to pieces of the text, each as far as its bytes have come. -/
theorem exists_pieces {chunks : List Chunk} (h : Cutting text chunks) :
    ∃ ts : List (List Char), ts.flatten = text ∧
      produce loads ⟨[], []⟩ chunks = produce loads ⟨[], []⟩ (ts.map .text) ∧
      ∀ k, ∃ kept, sent (chunks.take k) = Utf8.encode (ts.take k).flatten ++ kept ∧
        Utf8.Cut kept (ts.drop k).flatten := by
  obtain ⟨bs, rfl, hbs⟩ | ⟨ts, rfl, hts⟩ := h
  · obtain ⟨ts, hts, hsame, hparts⟩ := @produce_bytes loads [] text (Or.inl rfl) [] bs hbs
    refine ⟨ts, hts, hsame, fun k => ?_⟩
    rw [← List.map_take, sent_bytes]
    exact hparts k
  · refine ⟨ts, hts, rfl, fun k => ⟨[], ?_, Or.inl rfl⟩⟩
    rw [← List.map_take, sent_text, List.append_nil]

/-- A line has come with its last byte. -/
theorem encode_prefix {pre rest : List Char} (hpre : pre <+: a ++ rest)
    (hcut : Utf8.Cut kept rest) : Utf8.encode pre <+: Utf8.encode a ++ kept ↔ pre <+: a := by
  constructor
  · intro h
    obtain hle | ⟨q, rfl⟩ := List.prefix_or_prefix_of_prefix hpre (List.prefix_append a rest)
    · exact hle
    cases q with
    | nil =>
      simp
    | cons c q =>
      rw [List.prefix_append_right_inj] at hpre
      rw [Utf8.encode, List.flatMap_append, ← Utf8.encode, List.prefix_append_right_inj] at h
      obtain ⟨more, rfl⟩ := hpre
      have hle := h.length_le
      have hpos := List.length_pos_iff.mpr (String.utf8EncodeChar_ne_nil (c := c))
      rw [List.flatMap_cons, List.length_append] at hle
      obtain rfl | ⟨d, rest, tail, hrest, hstart, htail⟩ := hcut
      · rw [List.length_nil] at hle
        omega
      · cases hrest
        have hlen := congrArg List.length hstart
        have := List.length_pos_iff.mpr htail
        rw [List.length_append] at hlen
        omega
  · rintro ⟨more, rfl⟩
    rw [Utf8.encode, Utf8.encode, List.flatMap_append, List.append_assoc]
    exact List.prefix_append _ _

theorem detected_iff (hs : Short text) :
    (∀ chunks, Cutting text chunks → Detects loads text chunks) ↔
      ∀ line ∈ linesBefore loads text, ¬Refused loads line := by
  rw [← scan_ne_raised]
  constructor
  · intro h hr
    have hone : produce loads ⟨[], []⟩ ([text].map .text) = some (0, .raised) :=
      (produce_texts List.not_mem_nil (by simpa using hs)).mpr ⟨nofun, by simpa using hr, rfl⟩
    cases ((h _ (Or.inr ⟨[text], rfl, by simp⟩) 0 .raised).mp hone).1
  · intro hne chunks hcut k r
    obtain ⟨ts, rfl, hsame, hparts⟩ := @exists_pieces loads _ _ hcut
    have hpref : ∀ n, (ts.take n).flatten <+: ts.flatten := fun n =>
      ⟨(ts.drop n).flatten, by rw [← List.flatten_append, List.take_append_drop]⟩
    have hscan : ∀ n, (scan loads [] (ts.take n).flatten).1 = .output ↔
        ∃ pre, upTo (report loads · = .output) [] ts.flatten = some pre ∧
          Utf8.encode pre <+: sent (chunks.take n) := by
      intro n
      obtain ⟨kept, hsent, hkept⟩ := hparts n
      rw [scan_output (scan_prefix_ne (hpref n) hne), upTo_isSome (hpref n)]
      refine exists_congr fun pre => and_congr_right fun hpre => ?_
      rw [hsent, encode_prefix ?_ hkept]
      rw [← List.flatten_append, List.take_append_drop]
      simpa using (upTo_append (b := []) hpre).2
    have hquiet : ∀ n, (scan loads [] (ts.take n).flatten).1 = .nothing ↔
        (scan loads [] (ts.take n).flatten).1 ≠ .output := by
      intro n
      have hn := scan_prefix_ne (hpref n) hne
      cases hr : (scan loads [] (ts.take n).flatten).1 with
      | nothing | output => simp
      | raised => exact absurd hr hn
    rw [hsame, produce_texts List.not_mem_nil hs, hquiet]
    constructor
    · rintro ⟨hr, rfl, hbefore⟩
      have hout := not_not.mp fun ho => hr ((hquiet (k + 1)).mpr ho)
      obtain ⟨pre, hpre, hin⟩ := (hscan (k + 1)).mp hout
      exact ⟨hout, pre, hpre, hin, fun hk => hbefore ((hscan k).mpr ⟨pre, hpre, hk⟩)⟩
    · rintro ⟨rfl, pre, hpre, hin, hk⟩
      refine ⟨nofun, (hscan (k + 1)).mpr ⟨pre, hpre, hin⟩, fun ho => ?_⟩
      obtain ⟨pre', hpre', hin'⟩ := (hscan k).mp ho
      cases hpre.symm.trans hpre'
      exact hk hin'

/-! ## A line that ends the stream -/

/-- `json.loads`, as far as the line below needs it. -/
def loadsOne (text : List Char) : Loaded :=
  if text = " \x7b\"choices\": 1\x7d".toList then .value (.object [("choices", .number false)])
  else .invalid

def refused : List Char := "data: \x7b\"choices\": 1\x7d\n".toList

theorem short_refused : Short refused := fun l hl _ =>
  Nat.le_trans hl.length_le (by decide)

theorem detected_iff_refused : ¬∀ chunks, Cutting refused chunks → Detects loadsOne refused chunks :=
  fun h => (detected_iff short_refused).mp h _ (List.mem_singleton_self _)
    ⟨by decide, Or.inr ⟨_, rfl, .number false, rfl, Or.inr ⟨false, rfl⟩⟩⟩

theorem choices_raise : Short refused ∧ Cutting refused [.text refused] ∧
    produce loadsOne ⟨[], []⟩ [.text refused] = some (0, .raised) ∧
    ¬Detects loadsOne refused [.text refused] := by
  have hproduce : produce loadsOne ⟨[], []⟩ [.text refused] = some (0, .raised) := by rfl
  refine ⟨short_refused, Or.inr ⟨[refused], rfl, List.append_nil _⟩, hproduce, fun h => ?_⟩
  cases ((h 0 .raised).mp hproduce).1

end SparkDeck.PromptGate.Detector
