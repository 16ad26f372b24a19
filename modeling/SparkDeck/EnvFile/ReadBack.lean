import SparkDeck.Lib.Table
import SparkDeck.EnvFile.Frame

/-!
# Values that are read back

A key of an env file is set: `ReadsBack` says what the parser then finds, and `Readable` is when it
does and when setting the key once more leaves nothing of the first value (`set_reads_back`).
-/

namespace SparkDeck.EnvFile

/-- The update that sets one key. -/
def setting (key value : List Char) : Json := .object [(key, .text value)]

/-- At the line of the key is the value, and there is no entry that was not there before. -/
structure ReadsBack (text key value out : List Char) (e : Entry) : Prop where
  edited : ∃ x ∈ parseEnvFile out,
    x.line = e.line ∧ x.key = key ∧ x.enabled ∧ x.value = shellLiteral value
  others : ∀ x ∈ parseEnvFile out, x.line ≠ e.line → x ∈ parseEnvFile text

/-- The rest of a line after its value, with its CR and LF, and the lines after it. -/
structure Rest where
  after : List Char
  below : List (List Char)
  deriving DecidableEq

/-- What is after the value of an entry. -/
def restOf (text : List Char) (e : Entry) : Option Rest :=
  match (lineBreaks.split text)[e.line - 1]? with
  | some l =>
    (matchLine e.enabled (l.rdropWhile isCrLf)).map fun m =>
      ⟨(splitValue m.rest).2 ++ l.rtakeWhile isCrLf, (lineBreaks.split text).drop e.line⟩
  | none => none

/-- What will be on the line after a new value. -/
def Rest.line (r : Rest) : List Char :=
  ((lineBreaks.split (r.after ++ r.below.flatten)).head?.getD []).rdropWhile isCrLf

/-- A comment, with the space before it. -/
def isComment : List Char → Bool
  | [] => false
  | c :: cs => isSpace c && (cs.dropWhile isSpace).head? = some '#'

/-- When a value that is set is read back, and can be set again. -/
structure Readable (text value : List Char) (e : Entry) (r : Rest) : Prop where
  clear : lineBreaks.Clear value
  unquoted : '\'' ∉ value
  /-- A value that is not quoted is followed by nothing or by a comment; an empty one by nothing. -/
  followed : value.all isSafe → r.line = [] ∨ value ≠ [] ∧ isComment r.line
  /-- The line still ends where it did, or what moves up is as it was. -/
  ended : lineBreaks.Clear r.after → r.below ≠ [] → ∀ x ∈ parseEnvFile text, e.line + 2 ≤ x.line →
    { x with line := x.line - 1 } ∈ parseEnvFile text

/-! ## Values -/

variable {v : List Char}

theorem splitMarker_of_noSpace (hv : ∀ c ∈ v, isSpace c = false) (x : List Char) :
    splitMarker (v ++ x) = (v ++ (splitMarker x).1, (splitMarker x).2) := by
  induction v with
  | nil => rfl
  | cons c v ih =>
    have hc : isSpace c = false := hv c List.mem_cons_self
    rw [List.cons_append, splitMarker, hc, Bool.false_and, if_neg Bool.false_ne_true,
      ih fun d hd => hv d (List.mem_cons_of_mem c hd)]
    rfl

variable {x : List Char}

theorem splitMarker_fst_eq_nil : (splitMarker x).1 = [] ↔ x = [] ∨ isComment x := by
  cases x with
  | nil => exact ⟨fun _ => Or.inl rfl, fun _ => rfl⟩
  | cons c cs =>
    rw [splitMarker, isComment]
    split
    · next h => exact ⟨fun _ => Or.inr h, fun _ => rfl⟩
    · next h =>
      constructor
      · intro hn
        cases hn
      · rintro (hn | hn)
        · cases hn
        · exact absurd hn h

theorem safe_spec {c : Char} (h : isSafe c) :
    isSpace c = false ∧ c ≠ '\'' ∧ c ≠ '"' := by
  refine ⟨?_, ?_, ?_⟩
  · unfold isSafe at h
    rcases Bool.or_eq_true_iff.mp h with h | h
    · refine not_space_of_nameRest ?_
      rcases Bool.or_eq_true_iff.mp h with h | h <;> simp [isNameRest, isNameStart, h]
    · have hall : (['_', '.', '/', ':', '@', '%', '+', '=', ',', '-'].all
          fun x => !isSpace x) = true := by decide
      simpa using List.all_eq_true.mp hall c (of_decide_eq_true h)
  · rintro rfl
    cases h
  · rintro rfl
    cases h

theorem splitSingle_quote (hv : '\'' ∉ v) (x : List Char) :
    splitSingle (v ++ '\'' :: x) = (v ++ ['\''], x) := by
  induction v with
  | nil => rfl
  | cons c v ih =>
    rw [List.mem_cons, not_or] at hv
    rw [List.cons_append, splitSingle, if_neg fun h => hv.1 h.symm, ih hv.2]
    rfl

theorem escapeQuotes_of_not_mem (hv : '\'' ∉ v) : escapeQuotes v = v := by
  induction v with
  | nil => rfl
  | cons c v ih =>
    rw [List.mem_cons, not_or] at hv
    rw [escapeQuotes, if_neg fun h => hv.1 h.symm, ih hv.2]

/-- A quoted value goes up to its closing quote. -/
theorem splitValue_quoted (hv : '\'' ∉ v) (x : List Char) :
    splitValue ('\'' :: (v ++ ['\'']) ++ x) = ('\'' :: (v ++ ['\'']), x) := by
  have hdrop : (('\'' :: (v ++ ['\''])) ++ x).dropWhile isSpace = '\'' :: (v ++ '\'' :: x) := by
    rw [List.cons_append, List.append_assoc, List.singleton_append, List.dropWhile_cons,
      if_neg (by decide)]
  rw [splitValue, hdrop]
  dsimp only
  rw [if_pos rfl, splitSingle_quote hv]

/-- A value of safe characters goes up to a comment. -/
theorem splitValue_safe (hv : ∀ c ∈ v, isSafe c) (hne : v ≠ []) (x : List Char) :
    splitValue (v ++ x) = (v ++ (splitMarker x).1, (splitMarker x).2) := by
  cases v with
  | nil => exact absurd rfl hne
  | cons c v =>
    obtain ⟨hspace, hsingle, hdouble⟩ := safe_spec (hv c List.mem_cons_self)
    have hdrop : (c :: v ++ x).dropWhile isSpace = c :: (v ++ x) := by
      rw [List.cons_append, List.dropWhile_cons, if_neg (by rw [hspace]; exact Bool.false_ne_true)]
    rw [splitValue, hdrop]
    dsimp only
    rw [if_neg hsingle, if_neg hdouble, ← List.cons_append]
    exact splitMarker_of_noSpace (fun d hd => (safe_spec (hv d hd)).1) x

/-- No value is empty but that of spaces. -/
theorem splitValue_fst_eq_nil : (splitValue x).1 = [] ↔ ∀ c ∈ x, isSpace c := by
  rw [← List.dropWhile_eq_nil_iff]
  unfold splitValue
  split
  · next h => exact ⟨fun _ => h, fun _ => rfl⟩
  · next c cs h =>
    have hc : isSpace c = false := by
      have hhead := List.head_dropWhile_not isSpace (l := x)
        (by rw [h]; exact List.cons_ne_nil c cs)
      simpa [h] using hhead
    rw [h]
    refine ⟨fun hn => ?_, nofun⟩
    split at hn
    · cases hn
    · split at hn
      · cases hn
      · rw [splitMarker, hc, Bool.false_and, if_neg Bool.false_ne_true] at hn
        cases hn

theorem splitValue_nil_snd (h : (splitValue x).1 = []) : (splitValue x).2 = [] := by
  unfold splitValue
  rw [List.dropWhile_eq_nil_iff.mpr (splitValue_fst_eq_nil.mp h)]

theorem not_quote_of_safe (hv : v.all isSafe) : '\'' ∉ v := fun h =>
  (safe_spec (List.all_eq_true.mp hv _ h)).2.1 rfl

theorem literal_of_safe (hv : v.all isSafe) : shellLiteral v = v := if_pos hv

theorem literal_of_not_safe (hv : ¬v.all isSafe) (hquote : '\'' ∉ v) :
    shellLiteral v = '\'' :: (v ++ ['\'']) := by
  rw [shellLiteral, if_neg hv, escapeQuotes_of_not_mem hquote]

/-- A quote in a value ends the literal too early. -/
theorem literal_cut (hquote : '\'' ∈ v) (x : List Char) :
    (splitValue (shellLiteral v ++ x)).1.length < (shellLiteral v).length := by
  obtain ⟨a, b, rfl, ha⟩ := List.eq_append_cons_of_mem hquote
  have hunsafe : ¬(a ++ '\'' :: b).all isSafe := fun h => not_quote_of_safe h hquote
  have hescape : escapeQuotes (a ++ '\'' :: b) =
      a ++ '\'' :: '\\' :: '\'' :: '\'' :: escapeQuotes b := by
    clear hquote hunsafe
    induction a with
    | nil => rfl
    | cons c a ih =>
      rw [List.mem_cons, not_or] at ha
      rw [List.cons_append, escapeQuotes, if_neg fun h => ha.1 h.symm, ih ha.2]
      rfl
  have hline : shellLiteral (a ++ '\'' :: b) ++ x = '\'' :: (a ++ ['\'']) ++
      ('\\' :: '\'' :: '\'' :: (escapeQuotes b ++ ['\''] ++ x)) := by
    rw [shellLiteral, if_neg hunsafe, hescape]
    simp
  rw [hline, splitValue_quoted ha, shellLiteral, if_neg hunsafe, hescape]
  simp

/-- When a literal is read back from what is before `x`. -/
theorem literal_fst_iff (v x : List Char) :
    (splitValue (shellLiteral v ++ x)).1 = shellLiteral v ↔ '\'' ∉ v ∧
      (v.all isSafe → (v = [] ∧ ∀ c ∈ x, isSpace c) ∨
        v ≠ [] ∧ (x = [] ∨ isComment x)) := by
  by_cases hsafe : v.all isSafe
  · have hall := List.all_eq_true.mp hsafe
    rw [literal_of_safe hsafe, forall_prop_of_true hsafe]
    refine Iff.trans ?_ (and_iff_right (not_quote_of_safe hsafe)).symm
    cases v with
    | nil =>
      rw [List.nil_append, splitValue_fst_eq_nil]
      simp
    | cons c v =>
      rw [splitValue_safe hall (List.cons_ne_nil c v), List.append_right_eq_self, splitMarker_fst_eq_nil]
      simp
  · by_cases hquote : '\'' ∈ v
    · have hcut := literal_cut hquote x
      exact ⟨fun h => absurd (congrArg List.length h) (by omega), fun h => absurd hquote h.1⟩
    · rw [literal_of_not_safe hsafe hquote, splitValue_quoted hquote]
      exact ⟨fun _ => ⟨hquote, fun h => absurd h hsafe⟩, fun _ => rfl⟩

/-- When what is before `x` leaves it alone the next time. -/
theorem literal_snd_iff (hquote : '\'' ∉ v) (x : List Char) :
    (splitValue (shellLiteral v ++ x)).2 = x ↔
      (v.all isSafe → x = [] ∨ v ≠ [] ∧ isComment x) := by
  by_cases hsafe : v.all isSafe
  · have hall := List.all_eq_true.mp hsafe
    rw [literal_of_safe hsafe, forall_prop_of_true hsafe]
    cases v with
    | nil =>
      obtain ⟨gap, hx, _⟩ := splitValue_append x
      have hnil : (splitValue x).2 = x → x = [] := fun h => by
        rw [h, List.self_eq_append_left] at hx
        exact h ▸ splitValue_nil_snd (List.append_eq_nil_iff.mp hx).2
      rw [List.nil_append]
      constructor
      · exact fun h => Or.inl (hnil h)
      · rintro (rfl | ⟨h, _⟩)
        · rfl
        · exact absurd rfl h
    | cons c v =>
      have hx := splitMarker_append x
      have hfst : (splitMarker x).2 = x ↔ (splitMarker x).1 = [] :=
        ⟨fun h => by rwa [h, List.append_left_eq_self] at hx, fun h => by rwa [h] at hx⟩
      rw [splitValue_safe hall (List.cons_ne_nil c v), hfst, splitMarker_fst_eq_nil]
      simp
  · rw [literal_of_not_safe hsafe hquote, splitValue_quoted hquote]
    exact ⟨fun _ h => absurd h hsafe, fun _ => rfl⟩

/-! ## The effective entry -/

theorem zipIdx_sorted {α : Type*} (l : List α) (n : ℕ) :
    (l.zipIdx n).Pairwise fun a b => a.2 < b.2 := by
  induction l generalizing n with
  | nil => exact .nil
  | cons a l ih =>
    rw [List.zipIdx_cons]
    refine List.pairwise_cons.mpr ⟨fun x hx => ?_, ih (n + 1)⟩
    exact (List.mem_zipIdx_iff_le_and_getElem?_sub.mp hx).1

theorem parse_sorted (text : List Char) : (parseEnvFile text).Pairwise fun a b => a.line < b.line := by
  refine List.Pairwise.filterMap _ (fun a b hab x hx y hy => ?_) (zipIdx_sorted _ 1)
  rw [(entryOf_spec hx).1, (entryOf_spec hy).1]
  exact hab

theorem effective_concat (es : List Entry) (x : Entry) (key : List Char) :
    effective (es ++ [x]) key =
      if x.key = key then
        match effective es key with
        | none => some x
        | some y => if x.enabled || !y.enabled then some x else some y
      else effective es key := by
  unfold effective
  rw [List.foldl_append]
  rfl

variable {es : List Entry}

theorem effective_isSome {key : List Char} (h : ∃ x ∈ es, x.key = key) :
    ∃ e, effective es key = some e := by
  induction es using List.reverseRecOn with
  | nil => exact absurd h.choose_spec.1 List.not_mem_nil
  | append_singleton es x ih =>
    rw [effective_concat]
    split
    · split
      · exact ⟨x, rfl⟩
      · split
        · exact ⟨x, rfl⟩
        · exact ⟨_, rfl⟩
    · next hx =>
      obtain ⟨y, hy, hk⟩ := h
      rcases List.mem_append.mp hy with hy | hy
      · exact ih ⟨y, hy, hk⟩
      · exact absurd (List.mem_singleton.mp hy ▸ hk) hx

/-- After the effective entry of a key there is no active one. -/
theorem effective_last {key : List Char} {e : Entry}
    (hsorted : es.Pairwise fun a b => a.line < b.line) (h : effective es key = some e) :
    ∀ x ∈ es, x.key = key → e.line < x.line → x.enabled = false := by
  induction es using List.reverseRecOn generalizing e with
  | nil => exact nofun
  | append_singleton es y ih =>
    obtain ⟨hes, _, hbefore⟩ := List.pairwise_append.mp hsorted
    rw [effective_concat] at h
    intro x hx hk hlt
    rcases Table.mem_snoc hx with hx | rfl
    · have hxy := hbefore x hx y List.mem_cons_self
      split at h
      · split at h
        · cases h
          omega
        · next z hz =>
          split at h
          · cases h
            omega
          · cases h
            exact ih hes hz x hx hk hlt
      · exact ih hes h x hx hk hlt
    · rw [if_pos hk] at h
      split at h
      · cases h
        omega
      · split at h
        · cases h
          omega
        · next hno =>
          simp only [Bool.or_eq_true, not_or, Bool.not_eq_true] at hno
          exact hno.1

/-- An active entry with no active one after it is effective. -/
theorem effective_of_last {key : List Char} {e : Entry}
    (hsorted : es.Pairwise fun a b => a.line < b.line) (he : e ∈ es) (hkey : e.key = key)
    (henabled : e.enabled)
    (hlast : ∀ x ∈ es, x.key = key → e.line < x.line → x.enabled = false) :
    effective es key = some e := by
  induction es using List.reverseRecOn with
  | nil => cases he
  | append_singleton es y ih =>
    obtain ⟨hes, _, hbefore⟩ := List.pairwise_append.mp hsorted
    rw [effective_concat]
    rcases Table.mem_snoc he with he | rfl
    · have hlt := hbefore e he y List.mem_cons_self
      rw [ih hes he fun x hx => hlast x (List.mem_append_left _ hx)]
      split
      · next hk =>
        dsimp only
        rw [hlast y (List.mem_append_right _ List.mem_cons_self) hk hlt, henabled]
        rfl
      · rfl
    · rw [if_pos hkey, henabled]
      split
      · rfl
      · rfl

/-! ## The edited line -/

/-- Where the entry of a key is, and what an edit leaves before and after the new value. -/
structure Site (text key : List Char) (e : Entry) (above : List (List Char)) (l pre : List Char)
    (r : Rest) : Prop where
  lines : lineBreaks.split text = above ++ l :: r.below
  line : e.line = above.length + 1
  rest : restOf text e = some r
  clear : lineBreaks.Clear pre
  ne : pre ≠ []
  active : ∀ s, ∃ m, matchLine true (pre ++ s) = some m ∧ m.key = key ∧ m.rest = s
  edit : ∀ v, editLine e.enabled key (some v) true l = pre ++ shellLiteral v ++ r.after
  again : ∀ v s t, NoCrLf s → (∀ c ∈ t, isCrLf c) →
    editLine true key (some v) true (pre ++ s ++ t) = pre ++ shellLiteral v ++ (splitValue s).2 ++ t
  after : ∃ c y, r.after = c ++ y ∧ lineBreaks.Clear c ∧ (y = [] ∨ y = lineBreaks.term l)

/-- What follows a value ends as the line does. -/
theorem after_spec {l b x t : List Char} {m : Match} {enabled : Bool} (h : Parts l b x t)
    (hm : matchLine enabled b = some m) :
    ∃ c y, (splitValue (m.rest ++ x)).2 ++ t = c ++ y ∧ lineBreaks.Clear c ∧
      (y = [] ∨ y = lineBreaks.term l) := by
  obtain ⟨_, pre, hb, _⟩ := matchLine_prefix hm
  have hrest : lineBreaks.Clear m.rest := (hb ▸ h.clear).right
  obtain ⟨gap, hsplit, _⟩ := splitValue_append (m.rest ++ x)
  rw [h.term]
  generalize (splitValue (m.rest ++ x)).1 = old at hsplit
  generalize (splitValue (m.rest ++ x)).2 = c at hsplit ⊢
  by_cases hx : x = []
  · subst hx
    rw [List.append_nil] at hsplit
    exact ⟨c, t, rfl, (hsplit ▸ hrest).right, Or.inr rfl⟩
  · obtain rfl : t = [] := h.single.resolve_left hx
    rw [List.append_nil, List.append_nil]
    -- what is there at all ends in the break
    obtain ⟨d, rfl⟩ : ∃ d, x = [d] := by
      have hterm := h.isTerm
      rw [List.append_nil] at hterm
      rcases hterm with hn | ⟨d, _, hd⟩ | hd
      · exact absurd hn hx
      · exact ⟨d, hd⟩
      · have hcr := h.other '\r' (hd ▸ List.mem_cons_self)
        cases hcr
    cases c using List.reverseRecOn with
    | nil => exact ⟨[], [], rfl, nofun, Or.inl rfl⟩
    | append_singleton c d' =>
      rw [← List.append_assoc] at hsplit
      obtain ⟨hrest', hd⟩ := List.append_inj' hsplit rfl
      obtain rfl := (List.cons.inj hd).1
      exact ⟨c, [d], rfl, (hrest' ▸ hrest).right, Or.inr rfl⟩

theorem site_of_effective {text key : List Char} {e : Entry}
    (h : effective (parseEnvFile text) key = some e) : ∃ above l pre r, Site text key e above l pre r := by
  obtain ⟨hmem, hkey⟩ := effective_spec h
  obtain ⟨i, l, hget, hentry⟩ := mem_parse_iff.mp hmem
  obtain ⟨hline, _, m, hm, hmkey, _⟩ := entryOf_spec hentry
  have hsingle := (Breaks.split_spec (E := lineBreaks) text).1 l (List.mem_of_getElem? hget)
  obtain ⟨b, x, t, hparts⟩ := line_parts hsingle
  rw [hparts.body] at hm
  obtain ⟨hdrop, htake⟩ := hparts.strip
  have hmatch := matchLine_append hm x
  obtain ⟨hname, pre, hb, _, u, hpre⟩ := matchLine_prefix hm
  obtain ⟨hindent, _, _, _, ⟨hexport, _⟩, _⟩ := matchLine_iff.mp hm
  have hclear : lineBreaks.Clear m.indent := by
    have h := hparts.clear
    rw [hb, hpre] at h
    exact h.left.left
  obtain ⟨hlt, hl⟩ := List.getElem?_eq_some_iff.mp hget
  have hlen : ((lineBreaks.split text).take i).length = i := List.length_take_of_le (le_of_lt hlt)
  obtain rfl : m.key = key := hmkey.trans hkey
  refine ⟨(lineBreaks.split text).take i, l, m.indent ++ marker true ++ m.exported ++ m.key ++ ['='],
    ⟨(splitValue (m.rest ++ x)).2 ++ t, (lineBreaks.split text).drop (i + 1)⟩, ?_⟩
  have hform : AsWritten true m.key _ [] _ := written_form true true hindent hclear hexport hname nofun
  have hactive : ∀ s, matchLine true
      (m.indent ++ marker true ++ m.exported ++ m.key ++ ['='] ++ s) =
        some ⟨m.indent, m.exported, m.key, s⟩ := fun s => by
    rw [List.append_assoc _ ['='], List.singleton_append]
    exact matchLine_marker hindent hexport hname s
  refine ⟨?_, by rw [hlen, hline], ?_, hform.clear, hform.ne, fun s => ⟨_, hactive s, rfl, rfl⟩,
    fun v => ?_, fun v s t' hs ht' => ?_, after_spec hparts hm⟩
  · conv_lhs => rw [← List.take_append_drop i (lineBreaks.split text), List.drop_eq_getElem_cons hlt, hl]
  · rw [restOf, hline, Nat.add_sub_cancel, hget]
    dsimp only
    rw [hdrop, hmatch, htake]
    rfl
  · unfold editLine
    rw [hdrop, hmatch, htake]
    simp only [Option.map_some, Option.getD_some, List.append_assoc, List.cons_append, List.nil_append]
  · obtain ⟨hdrop', htake'⟩ := strip_append ((noCrLf_of_clear hform.clear).append hs) ht'
    unfold editLine
    rw [hdrop', hactive, htake']
    simp only [Option.map_some, Option.getD_some, List.append_assoc, List.cons_append, List.nil_append]

/-! ## The edited text -/

def settingOp (key value : List Char) : Op := ⟨key, none, .edit (some value) true⟩

theorem get_entry (key : List Char) (v : Json) :
    Json.get "value" [("key".toList, .text key), ("value".toList, v)] = some v ∧
      Json.get "key" [("key".toList, .text key), ("value".toList, v)] = some (.text key) ∧
      Json.get "line" [("key".toList, .text key), ("value".toList, v)] = none := by
  refine ⟨?_, ?_, ?_⟩ <;> simp [Json.get]

variable {ops : List Op}

/-- An update of one key. -/
theorem normalized_single {key : List Char} {v : Json} {op : Op}
    (hop : ∀ o, normalizedOp (.object [("key".toList, .text key), ("value".toList, v)]) = .ok o → o = op)
    (h : normalizedUpdates (.object [(key, v)]) = .ok ops) : ops = [op] := by
  obtain ⟨raws, hraws, h⟩ := bind_ok h
  cases hraws
  rw [if_neg (by simp), List.map_singleton, List.mapM_cons] at h
  obtain ⟨o, hop', h⟩ := bind_ok h
  obtain ⟨rest, hrest, h⟩ := bind_ok h
  cases hrest
  cases h
  exact congrArg (· :: []) (hop o hop')

theorem normalized_setting {key value : List Char}
    (h : normalizedUpdates (setting key value) = .ok ops) : ops = [settingOp key value] := by
  refine normalized_single (fun op hop => ?_) h
  obtain ⟨hvalue, hkey, hline⟩ := get_entry key (.text value)
  unfold normalizedOp at hop
  dsimp only at hop
  rw [hvalue, hkey, hline] at hop
  dsimp only at hop
  split at hop
  · split at hop
    · obtain ⟨line, hline, hop⟩ := bind_ok hop
      obtain ⟨change, hchange, hop⟩ := bind_ok hop
      cases hline
      obtain ⟨_, _, hchange⟩ := bind_ok hchange
      cases hchange
      cases hop
      rfl
    · cases hop
  · cases hop

variable {w : Work}

theorem updatedText_eq {text : List Char} (hlen : utf8Length text ≤ 256 * 1024)
    (hcount : (parseEnvFile text).length ≤ 512)
    (hloop : ops.foldlM (Work.turn (fileNewline text) (parseEnvFile text)) ⟨lineBreaks.split text, [], [], [], []⟩ = .ok w)
    (hlen' : utf8Length (w.rendered (fileNewline text)) ≤ 256 * 1024)
    (hcount' : (parseEnvFile (w.rendered (fileNewline text))).length ≤ 512) :
    updatedText text ops = .ok (w.rendered (fileNewline text), w) := by
  unfold updatedText
  rw [if_neg (by omega)]
  dsimp only
  rw [if_neg (by omega)]
  unfold fileNewline at hloop hlen' hcount' ⊢
  rw [hloop]
  simp only [bind, Except.bind]
  rw [if_neg (by omega), if_neg (by omega)]

theorem updatedText_small {text rendered : List Char}
    (h : updatedText text ops = .ok (rendered, w)) :
    utf8Length rendered ≤ 256 * 1024 ∧ (parseEnvFile rendered).length ≤ 512 := by
  unfold updatedText at h
  split at h
  · cases h
  · dsimp only at h
    split at h
    · cases h
    · obtain ⟨w', hw, h⟩ := bind_ok h
      split at h
      · cases h
      · split at h
        · cases h
        · next hlen hcount =>
          cases h
          exact ⟨by omega, by omega⟩

theorem modify_middle {α : Type*} (f : α → α) (above : List α) (l : α) (below : List α) :
    (above ++ l :: below).modify above.length f = above ++ f l :: below := by
  induction above with
  | nil => rfl
  | cons a above ih => exact congrArg (a :: ·) ih

/-- The loop for one key that the file has. -/
theorem setting_loop {text key : List Char} (value : List Char) {e : Entry}
    {above below : List (List Char)} {l : List Char} (newline : List Char)
    (hlines : lineBreaks.split text = above ++ l :: below) (hline : e.line = above.length + 1)
    (he : effective (parseEnvFile text) key = some e) :
    ∃ w, [settingOp key value].foldlM (Work.turn newline (parseEnvFile text))
        ⟨lineBreaks.split text, [], [], [], []⟩ = .ok w ∧
      w.rendered newline = above.flatten ++
        (editLine e.enabled key (some value) true l ++ below.flatten) := by
  refine ⟨⟨(lineBreaks.split text).modify (e.line - 1) (editLine e.enabled key (some value) true), [],
    [] ++ [key], [], if true && !e.enabled then [] ++ [key] else []⟩, ?_, ?_⟩
  · rw [List.foldlM_cons]
    unfold Work.turn settingOp Op.entry
    rw [he]
    rfl
  · rw [Work.rendered]
    rw [List.isEmpty_nil, if_pos rfl, hlines, hline, Nat.add_sub_cancel, modify_middle]
    simp only [List.flatten_append, List.flatten_cons]

/-- What an accepted setting writes. -/
theorem setting_text {text key value out : List Char} {e : Entry} {above below : List (List Char)}
    {l : List Char} (h : updatedText text [settingOp key value] = .ok (out, w))
    (hlines : lineBreaks.split text = above ++ l :: below) (hline : e.line = above.length + 1)
    (he : effective (parseEnvFile text) key = some e) :
    out = above.flatten ++ (editLine e.enabled key (some value) true l ++ below.flatten) := by
  obtain ⟨hloop, rfl⟩ := updatedText_spec h
  obtain ⟨w', hloop', hrendered⟩ := setting_loop value (fileNewline text) hlines hline he
  cases hloop.symm.trans hloop'
  exact hrendered

section site

variable {text key value : List Char} {e : Entry} {above : List (List Char)} {l pre : List Char}
  {r : Rest}

/-- The text with the new value. -/
def Rest.under (r : Rest) (above : List (List Char)) (pre value : List Char) : List Char :=
  above.flatten ++ (pre ++ shellLiteral value ++ (r.after ++ r.below.flatten))

theorem Site.text_eq (h : Site text key e above l pre r)
    (he : effective (parseEnvFile text) key = some e) {out : List Char}
    (hset : updatedText text [settingOp key value] = .ok (out, w)) :
    out = r.under above pre value := by
  rw [setting_text hset h.lines h.line he, h.edit, Rest.under]
  simp only [List.append_assoc]

/-- The lines of the text with the new value. -/
theorem Site.split_eq (h : Site text key e above l pre r) (value : List Char) :
    ∃ first rest, lineBreaks.split (pre ++ shellLiteral value ++ (r.after ++ r.below.flatten)) =
        first :: rest ∧
      lineBreaks.split (r.under above pre value) = above ++ first :: rest ∧
      lineBreaks.body first =
        pre ++ lineBreaks.body (shellLiteral value ++ (r.after ++ r.below.flatten)) := by
  have hhead : (pre ++ shellLiteral value ++ (r.after ++ r.below.flatten)).head? ≠ some '\n' := by
    rw [List.append_assoc]
    exact head_of_clear h.ne h.clear
  have hunder := Breaks.split_under h.lines hhead
  cases hsplit : lineBreaks.split (pre ++ shellLiteral value ++ (r.after ++ r.below.flatten)) with
  | nil =>
    have hflat := Breaks.flatten_split (E := lineBreaks)
      (pre ++ shellLiteral value ++ (r.after ++ r.below.flatten))
    rw [hsplit] at hflat
    simp [h.ne] at hflat
  | cons first rest =>
    refine ⟨first, rest, rfl, hsplit ▸ hunder, ?_⟩
    rw [← Breaks.body_first hsplit, List.append_assoc, Breaks.body_append h.clear]

/-- The entry of the edited line. -/
theorem Site.entry_eq (h : Site text key e above l pre r) (value : List Char) {x : Entry} :
    x ∈ parseEnvFile (r.under above pre value) ∧ x.line = e.line ↔
      x = ⟨key, (splitValue (lineBreaks.body
        (shellLiteral value ++ (r.after ++ r.below.flatten)))).1, true, e.line⟩ := by
  obtain ⟨first, rest, _, hlines, hbody⟩ := h.split_eq value
  obtain ⟨m, hm, hkey, hrest⟩ := h.active (lineBreaks.body
    (shellLiteral value ++ (r.after ++ r.below.flatten)))
  have hentry : entryOf (above.length + 1) (lineBreaks.body first) = some ⟨key, (splitValue
      (lineBreaks.body (shellLiteral value ++ (r.after ++ r.below.flatten)))).1, true, e.line⟩ := by
    unfold entryOf
    rw [hbody, show matchActive _ = some m from hm]
    dsimp only
    rw [hkey, hrest, h.line]
  have hget : (lineBreaks.split (r.under above pre value))[above.length]? = some first := by
    rw [hlines, List.getElem?_append_right le_rfl, Nat.sub_self]
    rfl
  constructor
  · rintro ⟨hx, hline⟩
    obtain ⟨i, l', hget', hof⟩ := mem_parse_iff.mp hx
    obtain rfl : i = above.length := by
      have h1 := (entryOf_spec hof).1
      have h2 := h.line
      omega
    cases hget.symm.trans hget'
    exact Option.some.inj (hof.symm.trans hentry)
  · rintro rfl
    exact ⟨mem_parse_iff.mpr ⟨above.length, first, hget, hentry⟩, rfl⟩

/-- When the new value is read back at its line. -/
theorem Site.edited_iff (h : Site text key e above l pre r) (value : List Char) :
    (∃ x ∈ parseEnvFile (r.under above pre value),
        x.line = e.line ∧ x.key = key ∧ x.enabled ∧ x.value = shellLiteral value) ↔
      lineBreaks.Clear value ∧
        (splitValue (shellLiteral value ++ lineBreaks.body (r.after ++ r.below.flatten))).1 =
          shellLiteral value := by
  have hiff : (∃ x ∈ parseEnvFile (r.under above pre value),
        x.line = e.line ∧ x.key = key ∧ x.enabled ∧ x.value = shellLiteral value) ↔
      (splitValue (lineBreaks.body (shellLiteral value ++ (r.after ++ r.below.flatten)))).1 =
        shellLiteral value := by
    constructor
    · rintro ⟨x, hx, hline, _, _, hvalue⟩
      obtain rfl := (h.entry_eq value).mp ⟨hx, hline⟩
      exact hvalue
    · intro hvalue
      obtain ⟨hx, hline⟩ := (h.entry_eq value).mpr rfl
      exact ⟨_, hx, hline, rfl, rfl, hvalue⟩
  rw [hiff]
  by_cases hclear : lineBreaks.Clear value
  · rw [Breaks.body_append (clear_literal hclear), and_iff_right hclear]
  · -- the line ends within the literal
    refine ⟨fun hvalue => ?_, fun hn => absurd hn.1 hclear⟩
    exfalso
    have hcut : lineBreaks.term (shellLiteral value) ≠ [] := fun hterm =>
      hclear (clear_of_literal (Breaks.clear_of_term_nil hterm))
    have hsplit := Breaks.body_append_term (E := lineBreaks) (shellLiteral value)
    have hbody : lineBreaks.body (shellLiteral value ++ (r.after ++ r.below.flatten)) =
        lineBreaks.body (shellLiteral value) := Breaks.body_append_of_term hcut _
    rw [hbody] at hvalue
    obtain ⟨gap, hgap, _⟩ := splitValue_append (lineBreaks.body (shellLiteral value))
    have hlen := congrArg List.length hgap
    have hlen' := congrArg List.length hsplit
    have hpos := List.length_pos_iff.mpr hcut
    rw [List.length_append, List.length_append, hvalue] at hlen
    rw [List.length_append] at hlen'
    omega

/-- The lines below the new value. -/
theorem Site.rest_eq (h : Site text key e above l pre r) :
    (lineBreaks.split (r.after ++ r.below.flatten)).tail =
      if lineBreaks.Clear r.after then r.below.tail else r.below := by
  obtain ⟨hsingle, hchain⟩ := Breaks.split_spec (E := lineBreaks) text
  rw [h.lines] at hsingle hchain
  obtain ⟨_, hchain, _⟩ := List.isChain_append.mp hchain
  have hbelow : lineBreaks.split r.below.flatten = r.below := by
    refine Breaks.split_flatten_iff.mpr
      ⟨fun m hm => hsingle m (List.mem_append_right _ (List.mem_cons_of_mem l hm)), ?_⟩
    exact hchain.tail
  split
  · next hclear =>
    by_cases hnil : r.after = []
    · rw [hnil, List.nil_append, hbelow]
    · rw [Breaks.split_push hclear hnil, hbelow]
      rfl
  · next hclear =>
    obtain ⟨c, y, hafter, hc, hy⟩ := h.after
    have hy : y = lineBreaks.term l := by
      refine hy.resolve_left fun hn => hclear ?_
      rw [hafter, hn, List.append_nil]
      exact hc
    have hterm : lineBreaks.term r.after = lineBreaks.term l := by
      rw [hafter, Breaks.term_append hc, hy]
      exact (hsingle l (List.mem_append_right _ List.mem_cons_self)).term.term
    have hends : lineBreaks.term l ≠ [] := fun hn =>
      hclear (Breaks.clear_of_term_nil (hterm.trans hn))
    have hone : lineBreaks.Single r.after := by
      refine ⟨fun hn => ?_, hterm ▸ (hsingle l (List.mem_append_right _ List.mem_cons_self)).term⟩
      rw [hn] at hterm
      exact hends hterm.symm
    rw [Breaks.split_append hone ⟨hterm ▸ hends, fun hcr => ?_⟩, hbelow]
    · rfl
    · cases hb : r.below with
      | nil => exact nofun
      | cons m below =>
        rw [hb] at hchain
        have hapart := (List.isChain_cons_cons.mp hchain).1
        have hm := hsingle m (by rw [hb]; simp)
        rw [List.flatten_cons, List.head?_append_of_ne_nil _ hm.ne]
        exact hapart.pair (hterm ▸ hcr)

omit text key value e above l pre r in
theorem entryOf_renumber {n n' : ℕ} {line : List Char} {x : Entry} (h : entryOf n line = some x) :
    entryOf n' line = some { x with line := n' } := by
  unfold entryOf at h ⊢
  cases hm : matchActive line with
  | some m =>
    rw [hm] at h
    cases h
    rfl
  | none =>
    rw [hm] at h
    dsimp only at h ⊢
    cases hm' : matchCommented line with
    | some m =>
      rw [hm'] at h
      cases h
      rfl
    | none =>
      rw [hm'] at h
      cases h

omit text key value e l pre r in
theorem getElem?_below (first : List Char) (rest : List (List Char)) (j : ℕ) :
    (above ++ first :: rest)[above.length + 1 + j]? = rest[j]? := by
  rw [List.getElem?_append_right (by omega), show above.length + 1 + j - above.length = j + 1 by omega,
    List.getElem?_cons_succ]

/-- When there is no entry that was not there before. -/
theorem Site.others_iff (h : Site text key e above l pre r) {value : List Char}
    (hvalue : lineBreaks.Clear value) :
    (∀ x ∈ parseEnvFile (r.under above pre value), x.line ≠ e.line → x ∈ parseEnvFile text) ↔
      (lineBreaks.Clear r.after → r.below ≠ [] → ∀ x ∈ parseEnvFile text, e.line + 2 ≤ x.line →
        { x with line := x.line - 1 } ∈ parseEnvFile text) := by
  obtain ⟨first, rest, hsplit, hlines, _⟩ := h.split_eq value
  have hrest : rest = if lineBreaks.Clear r.after then r.below.tail else r.below := by
    rw [Breaks.split_push (h.clear.append (clear_literal hvalue)) (by simp [h.ne])] at hsplit
    rw [← h.rest_eq]
    exact (List.cons.inj hsplit).2.symm
  have hline := h.line
  constructor
  · intro hothers hclear _ x hx hle
    obtain ⟨i, m, hget, hof⟩ := mem_parse_iff.mp hx
    have hxline := (entryOf_spec hof).1
    obtain ⟨j, rfl⟩ : ∃ j, i = above.length + 1 + (j + 1) := ⟨i - above.length - 2, by omega⟩
    rw [h.lines, getElem?_below] at hget
    rw [if_pos hclear] at hrest
    refine hothers _ (mem_parse_iff.mpr ⟨above.length + 1 + j, m, ?_, ?_⟩) ?_
    · rw [hlines, getElem?_below, hrest, List.getElem?_tail, hget]
    · rw [show x.line - 1 = above.length + 1 + j + 1 by omega]
      exact entryOf_renumber hof
    · dsimp only
      omega
  · intro hmoved x hx hne
    obtain ⟨i, m, hget, hof⟩ := mem_parse_iff.mp hx
    have hxline := (entryOf_spec hof).1
    rw [hlines] at hget
    by_cases hi : i < above.length
    · refine mem_parse_iff.mpr ⟨i, m, ?_, hof⟩
      rw [h.lines, List.getElem?_append_left hi]
      rwa [List.getElem?_append_left hi] at hget
    · obtain ⟨j, rfl⟩ : ∃ j, i = above.length + 1 + j := ⟨i - above.length - 1, by omega⟩
      rw [getElem?_below] at hget
      by_cases hclear : lineBreaks.Clear r.after
      · rw [hrest, if_pos hclear, List.getElem?_tail] at hget
        have hbelow : r.below ≠ [] := fun hn => by
          rw [hn] at hget
          cases hget
        have hnext : { x with line := above.length + 1 + (j + 1) + 1 } ∈ parseEnvFile text := by
          refine mem_parse_iff.mpr ⟨above.length + 1 + (j + 1), m, ?_, entryOf_renumber hof⟩
          rw [h.lines, getElem?_below, hget]
        have hmem := hmoved hclear hbelow _ hnext (by dsimp only; omega)
        rwa [Nat.add_sub_cancel, ← Nat.add_assoc, ← hxline] at hmem
      · rw [hrest, if_neg hclear] at hget
        exact mem_parse_iff.mpr ⟨above.length + 1 + j, m, by rw [h.lines, getElem?_below, hget], hof⟩

omit text key value e above l pre r in
theorem Parts.other_space {l b x t : List Char} (h : Parts l b x t) : ∀ c ∈ x, isSpace c := by
  rcases h.single with hx | ht
  · rw [hx]
    exact nofun
  · have hterm := h.isTerm
    rw [ht, List.append_nil] at hterm
    rcases hterm with hx | ⟨d, hd, hx⟩ | hx
    · rw [hx]
      exact nofun
    · rw [hx]
      exact List.forall_mem_cons.mpr ⟨space_of_sep hd, nofun⟩
    · rw [hx]
      exact List.forall_mem_cons.mpr ⟨by decide, List.forall_mem_cons.mpr ⟨by decide, nofun⟩⟩

omit text key value e above l pre in
/-- What follows the new value on its line, up to CR and LF. -/
theorem Rest.line_spec (r : Rest) : NoCrLf r.line ∧
    (∃ y, r.line = lineBreaks.body (r.after ++ r.below.flatten) ++ y ∧ ∀ c ∈ y, isSpace c) ∧
    ∃ t, (∀ c ∈ t, isCrLf c) ∧ r.after ++ r.below.flatten =
        r.line ++ t ++ (lineBreaks.split (r.after ++ r.below.flatten)).tail.flatten ∧
      (lineBreaks.split (r.after ++ r.below.flatten)).head?.getD [] = r.line ++ t := by
  unfold Rest.line
  generalize r.after ++ r.below.flatten = F
  have hflat := Breaks.flatten_split (E := lineBreaks) F
  cases hsplit : lineBreaks.split F with
  | nil =>
    rw [hsplit] at hflat
    subst hflat
    exact ⟨fun c hc => absurd hc List.not_mem_nil, ⟨[], rfl, nofun⟩, [], nofun, rfl, rfl⟩
  | cons f rest =>
    obtain ⟨b, x, t, hparts⟩ := line_parts ((Breaks.split_spec (E := lineBreaks) F).1 f
      (hsplit ▸ List.mem_cons_self))
    obtain ⟨hdrop, htake⟩ := hparts.strip
    rw [hsplit, List.flatten_cons, hparts.line] at hflat
    dsimp only [List.head?_cons, Option.getD_some, List.tail_cons]
    rw [hdrop, Breaks.body_first hsplit, hparts.body]
    exact ⟨(noCrLf_of_clear hparts.clear).append hparts.other, ⟨x, rfl, hparts.other_space⟩, t,
      hparts.crLf, hflat.symm, hparts.line⟩

omit l in
/-- The key is found at its line again. -/
theorem effective_again
    (he : effective (parseEnvFile text) key = some e) {value : List Char} {x : Entry}
    (hx : x ∈ parseEnvFile (r.under above pre value)) (hline : x.line = e.line) (hkey : x.key = key)
    (henabled : x.enabled)
    (hothers : ∀ y ∈ parseEnvFile (r.under above pre value), y.line ≠ e.line → y ∈ parseEnvFile text) :
    effective (parseEnvFile (r.under above pre value)) key = some x := by
  refine effective_of_last (parse_sorted _) hx hkey henabled fun y hy hk hlt => ?_
  have hmem := hothers y hy (by omega)
  exact effective_last (parse_sorted _) he y hmem hk (by omega)

/-- When the second value leaves nothing of the first one. -/
theorem Site.again_iff (h : Site text key e above l pre r)
    (he : effective (parseEnvFile text) key = some e) {value second : List Char}
    (hvalue : lineBreaks.Clear value) (hquote : '\'' ∉ value)
    (hothers : ∀ y ∈ parseEnvFile (r.under above pre value), y.line ≠ e.line → y ∈ parseEnvFile text) :
    (∃ w, [settingOp key second].foldlM (Work.turn (fileNewline (r.under above pre value))
          (parseEnvFile (r.under above pre value)))
        ⟨lineBreaks.split (r.under above pre value), [], [], [], []⟩ = .ok w ∧
      w.rendered (fileNewline (r.under above pre value)) = r.under above pre second) ↔
      (value.all isSafe → r.line = [] ∨ value ≠ [] ∧ isComment r.line) := by
  obtain ⟨hnoCrLf, _, t, ht, hafter, hfirst⟩ := r.line_spec
  obtain ⟨first, rest, hsplit, hlines, _⟩ := h.split_eq value
  rw [Breaks.split_push (h.clear.append (clear_literal hvalue)) (by simp [h.ne]), hfirst] at hsplit
  cases hsplit
  obtain ⟨hx, hline⟩ := (h.entry_eq value).mpr rfl
  have heff := effective_again he hx hline rfl rfl hothers
  obtain ⟨w, hloop, hrendered⟩ := setting_loop second (fileNewline (r.under above pre value)) hlines
    (hline.trans h.line) heff
  have hedit := h.again second (shellLiteral value ++ r.line) t
    ((noCrLf_literal (noCrLf_of_clear hvalue)).append hnoCrLf) ht
  have htext : w.rendered (fileNewline (r.under above pre value)) = above.flatten ++ (pre ++
      shellLiteral second ++ (splitValue (shellLiteral value ++ r.line)).2 ++ t ++
        (lineBreaks.split (r.after ++ r.below.flatten)).tail.flatten) := by
    rw [hrendered]
    simp only [List.append_assoc] at hedit ⊢
    rw [hedit]
    simp only [List.append_assoc]
  rw [← literal_snd_iff hquote]
  have hsame : w.rendered (fileNewline (r.under above pre value)) = r.under above pre second ↔
      (splitValue (shellLiteral value ++ r.line)).2 = r.line := by
    have hright : r.under above pre second = above.flatten ++ (pre ++ shellLiteral second ++
        (r.line ++ t ++ (lineBreaks.split (r.after ++ r.below.flatten)).tail.flatten)) :=
      congrArg (fun F => above.flatten ++ (pre ++ shellLiteral second ++ F)) hafter
    rw [htext, hright]
    generalize (lineBreaks.split (r.after ++ r.below.flatten)).tail.flatten = below
    simp only [List.append_assoc, List.append_right_inj]
    rw [List.append_left_inj]
  rw [← hsame]
  constructor
  · rintro ⟨w', hloop', hw⟩
    cases hloop.symm.trans hloop'
    exact hw
  · exact fun hw => ⟨w, hloop, hw⟩

theorem isComment_append {x y : List Char} (hy : ∀ c ∈ y, isSpace c)
    (h : isComment (x ++ y)) : isComment x := by
  cases x with
  | nil =>
    exfalso
    cases y with
    | nil => cases h
    | cons c y =>
      rw [List.nil_append, isComment,
        List.dropWhile_eq_nil_iff.mpr fun d hd => hy d (List.mem_cons_of_mem c hd)] at h
      simp at h
  | cons c x =>
    rw [List.cons_append, isComment, Bool.and_eq_true] at h
    rw [isComment, Bool.and_eq_true]
    refine ⟨h.1, ?_⟩
    have hhead := of_decide_eq_true h.2
    rw [List.dropWhile_append] at hhead
    split at hhead
    · rw [List.dropWhile_eq_nil_iff.mpr hy] at hhead
      cases hhead
    · next hne =>
      rw [List.head?_append_of_ne_nil _ (by simpa using hne)] at hhead
      exact decide_eq_true hhead

/-- When the new value is read back and can be set again. -/
theorem Site.readable_iff (h : Site text key e above l pre r)
    (he : effective (parseEnvFile text) key = some e) (value second : List Char) :
    ReadsBack text key value (r.under above pre value) e ∧
      (∃ w, [settingOp key second].foldlM (Work.turn (fileNewline (r.under above pre value))
          (parseEnvFile (r.under above pre value)))
        ⟨lineBreaks.split (r.under above pre value), [], [], [], []⟩ = .ok w ∧
      w.rendered (fileNewline (r.under above pre value)) = r.under above pre second) ↔
      Readable text value e r := by
  constructor
  · rintro ⟨⟨hedited, hothers⟩, hagain⟩
    obtain ⟨hclear, hread⟩ := (h.edited_iff value).mp hedited
    obtain ⟨hquote, _⟩ := (literal_fst_iff _ _).mp hread
    exact ⟨hclear, hquote, (h.again_iff he hclear hquote hothers).mp hagain,
      (h.others_iff hclear).mp hothers⟩
  · rintro ⟨hclear, hquote, hfollowed, hended⟩
    have hothers := (h.others_iff hclear).mpr hended
    refine ⟨⟨(h.edited_iff value).mpr ⟨hclear, (literal_fst_iff _ _).mpr ⟨hquote, fun hsafe => ?_⟩⟩,
      hothers⟩, (h.again_iff he hclear hquote hothers).mpr hfollowed⟩
    obtain ⟨_, ⟨y, hline, hy⟩, _⟩ := r.line_spec
    rcases hfollowed hsafe with hnil | ⟨hne, hcomment⟩
    · rw [hnil] at hline
      obtain ⟨hbody, _⟩ := List.append_eq_nil_iff.mp hline.symm
      rw [hbody]
      by_cases hv : value = []
      · exact Or.inl ⟨hv, nofun⟩
      · exact Or.inr ⟨hv, Or.inl rfl⟩
    · rw [hline] at hcomment
      exact Or.inr ⟨hne, Or.inr (isComment_append hy hcomment)⟩

end site

theorem setting_spec {path key value : List Char} {disk : Disk} {expected : Option ℚ}
    {written : Written} {text : List Char}
    (h : applyEnvUpdates path disk (setting key value) expected = .ok written)
    (ht : disk.text = some text) :
    (∃ w, updatedText text [settingOp key value] = .ok (written.text, w)) ∧
      ∀ text' out w, updatedText text' [settingOp key value] = .ok (out, w) →
        ∃ written', applyEnvUpdates path { disk with text := some text' } (setting key value)
          expected = .ok written' ∧ written'.text = out := by
  unfold applyEnvUpdates at h
  split at h
  · cases h
  · next hpath =>
    obtain ⟨ops, hops, h⟩ := bind_ok h
    obtain rfl := normalized_setting hops
    split at h
    · cases h
    · next hstale =>
      rw [ht] at h
      obtain ⟨⟨rendered, w⟩, hupdated, h⟩ := bind_ok h
      dsimp only at h
      split at h
      · cases h
      · next hstat =>
        cases h
        refine ⟨⟨w, hupdated⟩, fun text' out w' hupdated' =>
          ⟨⟨out, text', disk.after, w'.updated, w'.deleted, w'.enabledKeys⟩, ?_, rfl⟩⟩
        unfold applyEnvUpdates
        rw [if_neg hpath, hops]
        simp only [bind, Except.bind]
        rw [if_neg hstale, hupdated']
        dsimp only
        rw [if_neg hstat]

/-- For every text, key of it and accepted values: the first value is read back, and the second
leaves nothing of it, exactly when it is `Readable`. -/
theorem set_reads_back {path key value second text : List Char} {disk disk' : Disk}
    {expected expected' : Option ℚ} {written written' : Written}
    (hkey : ∃ x ∈ parseEnvFile text, x.key = key)
    (htext : disk.text = some text) (htext' : disk'.text = some text)
    (h : applyEnvUpdates path disk (setting key value) expected = .ok written)
    (h' : applyEnvUpdates path disk' (setting key second) expected' = .ok written') :
    ∃ e r, effective (parseEnvFile text) key = some e ∧ restOf text e = some r ∧
      (ReadsBack text key value written.text e ∧
        (∃ again, applyEnvUpdates path { disk' with text := some written.text } (setting key second)
          expected' = .ok again ∧ again.text = written'.text) ↔
        Readable text value e r) := by
  obtain ⟨e, he⟩ := effective_isSome hkey
  obtain ⟨above, l, pre, r, hsite⟩ := site_of_effective he
  obtain ⟨⟨w, hset⟩, _⟩ := setting_spec h htext
  obtain ⟨⟨w', hset'⟩, haccept⟩ := setting_spec h' htext'
  have hfirst := hsite.text_eq he hset
  have hsecond := hsite.text_eq he hset'
  refine ⟨e, r, he, hsite.rest, ?_⟩
  rw [hfirst, ← hsite.readable_iff he value second]
  refine and_congr_right fun _ => ?_
  constructor
  · rintro ⟨again, hagain, htext⟩
    obtain ⟨⟨w, hset⟩, _⟩ := setting_spec hagain rfl
    obtain ⟨hloop, hrendered⟩ := updatedText_spec hset
    exact ⟨w, hloop, hrendered.symm.trans (htext.trans hsecond)⟩
  · rintro ⟨w, hloop, hrendered⟩
    obtain ⟨hlen, hcount⟩ := updatedText_small hset
    obtain ⟨hlen', hcount'⟩ := updatedText_small hset'
    rw [hfirst] at hlen hcount
    rw [hsecond, ← hrendered] at hlen' hcount'
    obtain ⟨again, hagain, htext⟩ :=
      haccept _ _ w (updatedText_eq hlen hcount hloop hlen' hcount')
    exact ⟨again, hagain, htext.trans (hrendered.trans hsecond.symm)⟩

/-! ## Runs -/

instance (text key value out : List Char) (e : Entry) : Decidable (ReadsBack text key value out e) :=
  decidable_of_iff
    ((∃ x ∈ parseEnvFile out,
        x.line = e.line ∧ x.key = key ∧ x.enabled ∧ x.value = shellLiteral value) ∧
      ∀ x ∈ parseEnvFile out, x.line ≠ e.line → x ∈ parseEnvFile text)
    ⟨fun h => ⟨h.1, h.2⟩, fun h => ⟨h.1, h.2⟩⟩

/-- The value that is set has a space; the comment stays. -/
theorem set_reads_back_comment : ∃ written written',
    applied "# a\nA=1 # b\nB=2".toList (setting "A".toList "x y".toList) = .ok written ∧
    applied "# a\nA=1 # b\nB=2".toList (setting "A".toList "z".toList) = .ok written' ∧
    ReadsBack "# a\nA=1 # b\nB=2".toList "A".toList "x y".toList written.text
      ⟨"A".toList, "1".toList, true, 2⟩ ∧
    ∃ again, applied written.text (setting "A".toList "z".toList) = .ok again ∧
      again.text = written'.text := by
  obtain ⟨written, _, h, _, _⟩ := of_appliedIs (fun _ _ _ => true) "# a\nA=1 # b\nB=2".toList
    (setting "A".toList "x y".toList) (by decide +kernel)
  obtain ⟨written', _, h', _, _⟩ := of_appliedIs (fun _ _ _ => true) "# a\nA=1 # b\nB=2".toList
    (setting "A".toList "z".toList) (by decide +kernel)
  obtain ⟨e, r, he, hr, hiff⟩ := set_reads_back (by decide +kernel) rfl rfl h h'
  obtain rfl : e = ⟨"A".toList, "1".toList, true, 2⟩ :=
    Option.some.inj (he.symm.trans (by decide +kernel))
  obtain rfl : r = ⟨" # b\n".toList, ["B=2".toList]⟩ :=
    Option.some.inj (hr.symm.trans (by decide +kernel))
  obtain ⟨hreads, hagain⟩ := hiff.mpr ⟨by decide +kernel, by decide +kernel, by decide +kernel,
    fun hclear => absurd hclear (by decide +kernel)⟩
  exact ⟨written, written', h, h', hreads, hagain⟩

/-- A value has a quote or a vertical tab; a value without quotes is set before text that is no
comment, an empty one before a comment; a value before a vertical tab is replaced. -/
def unread : List (String × String) :=
  [("A=1\n", "it's"), ("A=1\n", "x\x0bB=2"), ("A='x'y\n", "z"), ("A=1 # b\n", ""),
    ("A=1\x0bB=2\n", "2")]

/-- None of these is read back; and a value that is set twice leaves what is behind its quote. -/
theorem set_left_over : (∀ x ∈ unread, ∃ written e,
      applied x.1.toList (setting "A".toList x.2.toList) = .ok written ∧
      effective (parseEnvFile x.1.toList) "A".toList = some e ∧
      ¬ReadsBack x.1.toList "A".toList x.2.toList written.text e) ∧
    ∃ written again direct, applied "A=1\n".toList (setting "A".toList "it's".toList) = .ok written ∧
      applied written.text (setting "A".toList "b".toList) = .ok again ∧
      applied "A=1\n".toList (setting "A".toList "b".toList) = .ok direct ∧
      again.text ≠ direct.text := by
  constructor
  · have hruns : (unread.all fun x => (effective (parseEnvFile x.1.toList) "A".toList).any fun e =>
        appliedIs (fun text _ out => !decide (ReadsBack text "A".toList x.2.toList out e))
          x.1.toList (setting "A".toList x.2.toList)) = true := by decide +kernel
    intro x hx
    obtain ⟨e, he, hany⟩ := (Option.any_eq_true _ _).mp (List.all_eq_true.mp hruns x hx)
    obtain ⟨written, _, h, _, hread⟩ := of_appliedIs _ _ _ hany
    exact ⟨written, e, h, he, by simpa using hread⟩
  · obtain ⟨written, _, h, _, hout⟩ := of_appliedIs
      (fun _ _ out => decide (out = "A='it'\\''s'\n".toList)) "A=1\n".toList
      (setting "A".toList "it's".toList) (by decide +kernel)
    obtain ⟨again, _, h', _, hout'⟩ := of_appliedIs
      (fun _ _ out => decide (out = "A=b\\''s'\n".toList)) "A='it'\\''s'\n".toList
      (setting "A".toList "b".toList) (by decide +kernel)
    obtain ⟨direct, _, h'', _, hout''⟩ := of_appliedIs
      (fun _ _ out => decide (out = "A=b\n".toList)) "A=1\n".toList
      (setting "A".toList "b".toList) (by decide +kernel)
    refine ⟨written, again, direct, h, ?_, h'', ?_⟩
    · rw [of_decide_eq_true hout]
      exact h'
    · rw [of_decide_eq_true hout', of_decide_eq_true hout'']
      decide

end SparkDeck.EnvFile
