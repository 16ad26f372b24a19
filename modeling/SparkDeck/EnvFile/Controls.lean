import SparkDeck.EnvFile.Batch
import SparkDeck.Lib.Assoc

/-!
# Controls that an env file backs

`field_mapping` and `resolve_control_updates` (`sparkdeck/envfile_settings.py`), and what their
updates do to the file.

* A control without a value comments its variable out where it is effective; other active
  assignments of the variable stay (`unset_duplicate`).
* `controls_iff`: when no active assignment is left, and when the last one is that of the control.
-/

namespace SparkDeck.EnvFile

/-- `CONTROL_ENV_CANDIDATES` -/
def controlEnvCandidates : List (String × List (List Char)) :=
  [("context_window", ["MAX_MODEL_LEN".toList]),
    ("max_concurrency", ["MAX_NUM_SEQS".toList]),
    ("max_num_batched_tokens", ["MAX_NUM_BATCHED_TOKENS".toList]),
    ("kv_cache_dtype", ["KV_CACHE_DTYPE".toList]),
    ("gpu_memory_utilization",
      ["GPU_MEMORY_UTILIZATION".toList, "GPU_MEMORY_UTILIZATION_TEXT".toList]),
    ("served_model_name", ["SERVED_MODEL_NAME".toList])]

/-- `field_mapping` -/
def fieldMapping (entries : List Entry) : List (String × List Char) :=
  controlEnvCandidates.filterMap fun x =>
    (x.2.find? fun candidate => entries.any fun e => e.key = candidate).map (x.1, ·)

inductive ControlError where
  | notEditable (control : String)
  | notBacked (control : String) (candidates : List (List Char))

def ControlError.message : ControlError → String
  | notEditable control =>
    "launch control '" ++ control ++ "' cannot be edited through the settings env file"
  | notBacked control candidates =>
    "the settings env file has no variable backing '" ++ control ++ "'; add one of " ++
      ", ".intercalate (candidates.map String.ofList) ++ " to the file to edit it"

/-- `_reject_unmapped_control` -/
def rejectUnmappedControl (control : String) : ControlError :=
  match (Assoc.get controlEnvCandidates control).getD [] with
  | [] => .notEditable control
  | candidates => .notBacked control candidates

/-- The update of a variable whose control has no value. -/
def unsetting : Json := .object [("value".toList, .null), ("enabled".toList, .bool false)]

/-- A turn of the first loop of `resolve_control_updates`; a value is what `str` makes of it. -/
def resolveLaunchControl (mapping : List (String × List Char)) (updates : List (List Char × Json))
    (control : String × Option (List Char)) : Except ControlError (List (List Char × Json)) :=
  match control.2, Assoc.get mapping control.1 with
  | none, none => .ok updates
  | none, some key => .ok (Assoc.set updates key unsetting)
  | some [], _ => .ok updates
  | some _, none => .error (rejectUnmappedControl control.1)
  | some value, some key => .ok (Assoc.set updates key (.text value))

/-- A turn of the second loop. -/
def resolveScalar (mapping : List (String × List Char)) (updates : List (List Char × Json))
    (control : String × Option (List Char)) : Except ControlError (List (List Char × Json)) :=
  match control.2 with
  | none => .ok updates
  | some value =>
    if value = [] ∧ control.1 ≠ "served_model_name" then .ok updates
    else
      match Assoc.get mapping control.1 with
      | none => .error (rejectUnmappedControl control.1)
      | some key => .ok (Assoc.set updates key (.text value))

/-- `resolve_control_updates` -/
def resolveControlUpdates (launchControls : List (String × Option (List Char)))
    (gpuMemoryUtilization servedModelName : Option (List Char)) (entries : List Entry) :
    Except ControlError (List (List Char × Json)) := do
  let mapping := fieldMapping entries
  let updates ← launchControls.foldlM (resolveLaunchControl mapping) []
  [("gpu_memory_utilization", gpuMemoryUtilization), ("served_model_name", servedModelName)].foldlM
    (resolveScalar mapping) updates

/-! ## What the controls ask for -/

/-- No assignment of the variable is active. -/
def Unset (key out : List Char) : Prop :=
  ∀ x ∈ parseEnvFile out, x.key = key → x.enabled = false

/-- The last active assignment of the variable is on the line of its entry. -/
def LastIsEdited (key out : List Char) (e : Entry) : Prop :=
  (∃ x ∈ parseEnvFile out, x.line = e.line ∧ x.key = key ∧ x.enabled) ∧
    ∀ x ∈ parseEnvFile out, x.key = key → x.enabled → x.line ≤ e.line

/-- At most one assignment of the variable is active. -/
def AtMostOne (key text : List Char) : Prop :=
  ∀ x ∈ parseEnvFile text, ∀ y ∈ parseEnvFile text,
    x.key = key → x.enabled → y.key = key → y.enabled → x = y

/-- A value, read as an env file, assigns to the variable on its first line only. -/
def FirstLine (key value : List Char) : Prop :=
  ∀ x ∈ parseEnvFile value, x.key = key → x.enabled → x.line = 1

/-! ## Active assignments by line -/

/-- The first line of a text is an active assignment of the key. -/
def Assigns (key line : List Char) : Prop :=
  ∃ m, matchLine true (lineBreaks.body line) = some m ∧ m.key = key

theorem assigns_iff {text key : List Char} {n : ℕ} :
    (∃ x ∈ parseEnvFile text, x.key = key ∧ x.enabled ∧ x.line = n + 1) ↔
      ∃ l, (lineBreaks.split text)[n]? = some l ∧ Assigns key l := by
  constructor
  · rintro ⟨x, hx, hkey, henabled, hline⟩
    obtain ⟨i, l, hget, hentry⟩ := mem_parse_iff.mp hx
    obtain ⟨hline', _, m, hm, hmkey, _⟩ := entryOf_spec hentry
    obtain rfl : i = n := by omega
    exact ⟨l, hget, m, henabled ▸ hm, hmkey.trans hkey⟩
  · rintro ⟨l, hget, m, hm, hmkey⟩
    have hactive : matchActive (lineBreaks.body l) = some m := by
      rwa [matchLine, if_pos rfl] at hm
    refine ⟨⟨m.key, (splitValue m.rest).1, true, n + 1⟩,
      mem_parse_iff.mpr ⟨n, l, hget, ?_⟩, hmkey, rfl, rfl⟩
    unfold entryOf
    rw [hactive]

theorem assigns_head {s l : List Char} {ls : List (List Char)} {key : List Char}
    (h : lineBreaks.split s = l :: ls) : Assigns key l ↔ Assigns key s := by
  unfold Assigns
  rw [Breaks.body_first h]

/-! ## Values that are quoted -/

/-- What has no quote is at the beginning of a text, whether its quotes are escaped or not. -/
theorem escape_prefix {u value t r : List Char} (hu : '\'' ∉ u)
    (ht : t = [] ∨ t.head? = some '\'') (h : escapeQuotes value ++ t = u ++ r) :
    ∃ r', value = u ++ r' := by
  induction u generalizing value with
  | nil => exact ⟨value, rfl⟩
  | cons c u ih =>
    have hc : c ≠ '\'' := fun hc => hu (hc ▸ List.mem_cons_self)
    cases value with
    | nil =>
      rw [escapeQuotes, List.nil_append] at h
      rcases ht with rfl | ht
      · cases h
      · rw [h] at ht
        exact absurd (Option.some.inj ht) hc
    | cons d value =>
      rw [escapeQuotes] at h
      split at h
      case isTrue => exact absurd (List.cons.inj h).1.symm hc
      case isFalse =>
        obtain ⟨hcd, htail⟩ := List.cons.inj h
        subst hcd
        obtain ⟨r', hr'⟩ := ih (fun hmem => hu (List.mem_cons_of_mem d hmem)) htail
        exact ⟨r', congrArg (d :: ·) hr'⟩

theorem escapeQuotes_append (a b : List Char) :
    escapeQuotes (a ++ b) = escapeQuotes a ++ escapeQuotes b := by
  induction a with
  | nil => rfl
  | cons c a ih =>
    rw [List.cons_append, escapeQuotes, escapeQuotes, ih]
    split
    · rfl
    · rfl

/-- What makes a line an assignment has no quote. -/
theorem assignment_prefix {line : List Char} {m : Match} (h : matchLine true line = some m) :
    ∃ u, '\'' ∉ u ∧ line = u ++ m.rest ∧
      ∀ t, matchLine true (u ++ t) = some { m with rest := t } := by
  obtain ⟨hindent, hash, l, rfl, ⟨hword, l', rfl, hname, blanks, hblanks, rfl⟩, hhash⟩ :=
    matchLine_iff.mp h
  refine ⟨m.indent ++ hash ++ (m.exported ++ (m.key ++ blanks ++ ['='])), ?_, ?_, fun t => ?_⟩
  · rw [if_pos rfl] at hhash
    subst hhash
    obtain ⟨_, _, _, _, hkey⟩ := isKeyName_iff.mp hname
    have hspace : ∀ c, isSpace c → c ≠ '\'' := by
      rintro c hc rfl
      cases hc
    simp only [List.mem_append, List.mem_singleton, List.append_nil, not_or]
    refine ⟨fun hc => hspace _ (hindent _ hc) rfl, fun hc => ?_,
      ⟨fun hc => ?_, fun hc => ?_⟩, by decide⟩
    · rcases hword with hw | ⟨blanks', _, hblanks', hw⟩
      · rw [hw] at hc
        cases hc
      · rw [hw] at hc
        rcases List.mem_append.mp hc with hc | hc
        · exact absurd hc (by decide)
        · exact hspace _ (space_of_blank (hblanks' _ hc)) rfl
    · cases hkey _ hc
    · exact hspace _ (space_of_blank (hblanks _ hc)) rfl
  · simp only [List.append_assoc, List.cons_append, List.nil_append]
  · refine matchLine_iff.mpr ⟨hindent, hash, _, ?_,
      ⟨hword, m.key ++ blanks ++ '=' :: t, rfl, hname, blanks, hblanks, rfl⟩, hhash⟩
    simp only [List.append_assoc, List.cons_append, List.nil_append]

theorem match_escaped {value t key : List Char} (ht : t = [] ∨ t.head? = some '\'') :
    (∃ m, matchLine true (escapeQuotes value ++ t) = some m ∧ m.key = key) ↔
      ∃ m, matchLine true value = some m ∧ m.key = key := by
  constructor
  · rintro ⟨m, hm, hkey⟩
    obtain ⟨u, hu, hline, hagain⟩ := assignment_prefix hm
    obtain ⟨r, rfl⟩ := escape_prefix hu ht hline
    exact ⟨_, hagain r, hkey⟩
  · rintro ⟨m, hm, hkey⟩
    obtain ⟨u, hu, rfl, hagain⟩ := assignment_prefix hm
    rw [escapeQuotes_append, escapeQuotes_of_not_mem hu, List.append_assoc]
    exact ⟨_, hagain _, hkey⟩

theorem clear_quote : lineBreaks.Clear ['\''] := List.forall_mem_cons.mpr ⟨by decide, nofun⟩

/-- The first line of a quoted value, whatever follows it. -/
theorem assigns_escaped (value t key : List Char) :
    Assigns key (escapeQuotes value ++ '\'' :: t) ↔ Assigns key value := by
  have hclear : ∀ {a : List Char}, lineBreaks.Clear a → lineBreaks.Clear (escapeQuotes a) := by
    intro a ha c hc
    rcases escapeQuotes_mem hc with hc | rfl | rfl
    · exact ha c hc
    · decide
    · decide
  have hvalue := Breaks.body_append_term (E := lineBreaks) value
  have hbody := Breaks.clear_body (E := lineBreaks) value
  unfold Assigns
  rcases Breaks.term_cases (E := lineBreaks) value with hterm | ⟨c, u, hsep, hterm⟩
  · rw [hterm, List.append_nil] at hvalue
    rw [hvalue] at hbody
    have hquote := Breaks.body_append clear_quote t
    rw [List.singleton_append] at hquote
    rw [Breaks.body_append (hclear hbody), hquote, hvalue]
    exact match_escaped (Or.inr rfl)
  · have hc : c ≠ '\'' := by
      rintro rfl
      cases hsep
    rw [hterm] at hvalue
    have hescape : escapeQuotes value ++ '\'' :: t =
        escapeQuotes (lineBreaks.body value) ++ c :: (escapeQuotes u ++ '\'' :: t) := by
      conv_lhs => rw [← hvalue]
      rw [escapeQuotes_append, escapeQuotes, if_neg hc, List.append_assoc, List.cons_append]
    rw [hescape, Breaks.body_append (hclear hbody), Breaks.body_cons_of_sep hsep]
    exact match_escaped (Or.inl rfl)

/-- The lines of a quoted value after its first one. -/
theorem tail_escaped {value t key : List Char} (hvalue : NoCrLf value)
    (ht : ∀ l ∈ (lineBreaks.split t).tail, ¬Assigns key l) :
    (∀ l ∈ (lineBreaks.split (escapeQuotes value ++ '\'' :: t)).tail, ¬Assigns key l) ↔
      ∀ l ∈ (lineBreaks.split value).tail, ¬Assigns key l := by
  have hpush : ∀ {c : Char} (s : List Char), lineBreaks.sep c = false →
      (lineBreaks.split (c :: s)).tail = (lineBreaks.split s).tail := by
    intro c s hc
    have hsplit := Breaks.split_push (E := lineBreaks) (a := [c])
      (List.forall_mem_singleton.mpr hc) (List.cons_ne_nil c []) s
    rw [List.singleton_append] at hsplit
    rw [hsplit, List.tail_cons]
  induction value with
  | nil =>
    rw [escapeQuotes, List.nil_append, hpush t (by decide)]
    exact ⟨fun _ => List.forall_mem_nil _, fun _ => ht⟩
  | cons c value ih =>
    have hc : isCrLf c = false := hvalue c List.mem_cons_self
    have ih := ih fun d hd => hvalue d (List.mem_cons_of_mem c hd)
    by_cases hsep : lineBreaks.sep c
    · -- a new line begins after the break
      have hcr : c ≠ '\r' := by
        rintro rfl
        cases hc
      have hquote : c ≠ '\'' := by
        rintro rfl
        cases hsep
      have hcut : ∀ s, lineBreaks.split (c :: s) = [c] :: lineBreaks.split s := fun s => by
        rw [Breaks.split, if_pos ⟨hsep, fun hn => hcr hn.1⟩]
      rw [escapeQuotes, if_neg hquote, List.cons_append, hcut, hcut, List.tail_cons, List.tail_cons]
      have hfirst : ∀ {s : List Char}, (∀ l ∈ lineBreaks.split s, ¬Assigns key l) ↔
          ¬Assigns key s ∧ ∀ l ∈ (lineBreaks.split s).tail, ¬Assigns key l := by
        intro s
        cases hs : lineBreaks.split s with
        | nil =>
          have hflat := Breaks.flatten_split (E := lineBreaks) s
          rw [hs] at hflat
          obtain rfl : [] = s := hflat
          refine ⟨fun _ => ⟨?_, List.forall_mem_nil _⟩, fun _ => List.forall_mem_nil _⟩
          rintro ⟨m, hm, _⟩
          cases hm
        | cons l ls =>
          rw [List.forall_mem_cons, List.tail_cons, assigns_head hs]
      rw [hfirst, hfirst]
      exact and_congr (not_congr (assigns_escaped value t key)) ih
    · have hsep : lineBreaks.sep c = false := by simpa using hsep
      rw [escapeQuotes]
      split
      case isTrue =>
        rw [List.cons_append, List.cons_append, List.cons_append, List.cons_append,
          hpush _ (by decide), hpush _ (by decide), hpush _ (by decide), hpush _ (by decide),
          hpush _ hsep]
        exact ih
      case isFalse =>
        rw [List.cons_append, hpush _ hsep, hpush _ hsep]
        exact ih

/-- The lines of a value that is written after its first one. -/
theorem tail_literal {value t key : List Char} (hvalue : NoCrLf value)
    (ht : ∀ l ∈ (lineBreaks.split t).tail, ¬Assigns key l) :
    (∀ l ∈ (lineBreaks.split (shellLiteral value ++ t)).tail, ¬Assigns key l) ↔
      ∀ l ∈ (lineBreaks.split value).tail, ¬Assigns key l := by
  unfold shellLiteral
  split
  case isTrue hsafe =>
    have hclear : lineBreaks.Clear value := by
      intro c hc
      by_contra hsep
      have hspace := space_of_sep (by simpa using hsep)
      rw [(safe_spec (List.all_eq_true.mp hsafe c hc)).1] at hspace
      cases hspace
    by_cases hne : value = []
    · subst hne
      exact ⟨fun _ => nofun, fun _ => ht⟩
    · have hsplit := Breaks.split_push hclear hne
      have hself := hsplit []
      rw [List.append_nil] at hself
      rw [hsplit t, hself]
      exact ⟨fun _ => nofun, fun _ => ht⟩
  case isFalse =>
    have hsplit := Breaks.split_push clear_quote (List.cons_ne_nil _ [])
      (escapeQuotes value ++ '\'' :: t)
    rw [List.cons_append, List.append_assoc, List.singleton_append]
    rw [List.singleton_append] at hsplit
    rw [hsplit, List.tail_cons]
    exact tail_escaped hvalue ht

/-- The lines of a value. -/
theorem firstLine_iff {key value : List Char} :
    FirstLine key value ↔ ∀ l ∈ (lineBreaks.split value).tail, ¬Assigns key l := by
  constructor
  · intro h l hl hassigns
    obtain ⟨n, hn, rfl⟩ := List.getElem_of_mem hl
    obtain ⟨x, hx, hkey, henabled, hline⟩ := assigns_iff.mpr
      ⟨(lineBreaks.split value).tail[n], List.getElem?_tail ▸ List.getElem?_eq_getElem hn, hassigns⟩
    have := h x hx hkey henabled
    omega
  · intro h x hx hkey henabled
    obtain ⟨i, _, _, hentry⟩ := mem_parse_iff.mp hx
    have hline := (entryOf_spec hentry).1
    cases i with
    | zero => exact hline
    | succ n =>
      obtain ⟨l, hget, hassigns⟩ := assigns_iff.mp ⟨x, hx, hkey, henabled, hline⟩
      refine absurd hassigns (h l (List.mem_of_getElem? (i := n) ?_))
      rw [List.getElem?_tail]
      exact hget

/-! ## The lines after an edit -/

namespace Spot

variable {text key : List Char} {e : Entry} (s : Spot text key e)

/-- The lines after what is kept of the line are lines of the file. -/
theorem tail_below {a b : List Char} (h : s.rest = a ++ b) :
    ∀ l ∈ (lineBreaks.split (b ++ s.newline ++ s.below.flatten)).tail, l ∈ s.below := by
  obtain ⟨hsingle, hchain⟩ := Breaks.split_spec (E := lineBreaks) text
  rw [s.lines] at hsingle hchain
  obtain ⟨_, hchain, _⟩ := List.isChain_append.mp hchain
  have hline := hsingle s.line (List.mem_append_right _ List.mem_cons_self)
  have hbelow : lineBreaks.split s.below.flatten = s.below := by
    refine Breaks.split_flatten_iff.mpr ⟨fun l hl => ?_, hchain.tail⟩
    exact hsingle l (List.mem_append_right _ (List.mem_cons_of_mem _ hl))
  obtain ⟨c, y, hcy, hclear, hy⟩ := s.ends a b h
  have htail : ∀ l ∈ (lineBreaks.split (y ++ s.below.flatten)).tail, l ∈ s.below := by
    by_cases hnil : y = []
    · rw [hnil, List.nil_append, hbelow]
      exact fun l hl => List.mem_of_mem_tail hl
    · obtain rfl := hy.resolve_left hnil
      have hapart : lineBreaks.Apart (lineBreaks.term s.line) s.below.flatten := by
        refine ⟨by rwa [hline.term.term], fun hcr => ?_⟩
        rw [hline.term.term] at hcr
        cases hs : s.below with
        | nil => exact nofun
        | cons m ms =>
          rw [hs] at hchain hsingle
          have hm := hsingle m (List.mem_append_right _ (List.mem_cons_of_mem _ List.mem_cons_self))
          rw [List.flatten_cons, List.head?_append_of_ne_nil _ hm.ne]
          exact (List.isChain_cons_cons.mp hchain).1.pair hcr
      rw [Breaks.split_append ⟨hnil, hline.term.term.symm ▸ hline.term⟩ hapart, List.tail_cons,
        hbelow]
      exact fun l hl => hl
  rw [hcy, List.append_assoc]
  by_cases hnil : c = []
  · rw [hnil, List.nil_append]
    exact htail
  · rw [Breaks.split_push hclear hnil, List.tail_cons]
    exact htail

/-- No active assignment of the key is below its effective entry. -/
theorem not_assigns_below (he : effective (parseEnvFile text) key = some e) :
    ∀ l ∈ s.below, ¬Assigns key l := by
  intro l hl hassigns
  obtain ⟨j, hj, rfl⟩ := List.getElem_of_mem hl
  have hget : (lineBreaks.split text)[s.above.length + (j + 1)]? = some s.below[j] := by
    rw [s.lines, List.getElem?_append_right (by omega), Nat.add_sub_cancel_left,
      List.getElem?_cons_succ, List.getElem?_eq_getElem hj]
  obtain ⟨x, hx, hkey, henabled, hline⟩ := assigns_iff.mpr ⟨_, hget, hassigns⟩
  have hyields := effective_yields (parse_sorted text) he x hx hkey
  have hnumber := s.number
  unfold Entry.Yields at hyields
  split at hyields
  · have := hyields henabled
    omega
  · rw [henabled] at hyields
    cases hyields.1

/-- What the file is after an edit. -/
def out (value : Option (List Char)) (enabled : Bool) : List Char :=
  s.above.flatten ++ (s.edited value enabled ++ s.below.flatten)

/-- What follows the `=` of the line, to the end of the file. -/
def after (value : Option (List Char)) : List Char :=
  s.parts.tail value ++ s.newline ++ s.below.flatten

theorem lines_out (value : Option (List Char)) (enabled : Bool) :
    ∃ first, lineBreaks.split (s.out value enabled) =
        s.above ++ first :: (lineBreaks.split (s.after value)).tail ∧
      lineBreaks.body first = s.head enabled ++ '=' :: lineBreaks.body (s.after value) := by
  have hclear : lineBreaks.Clear (s.head enabled ++ ['=']) :=
    (s.clear_head enabled).append (List.forall_mem_cons.mpr ⟨by decide, nofun⟩)
  have hne : s.head enabled ++ ['='] ≠ [] := by simp
  have hedited : s.edited value enabled ++ s.below.flatten =
      s.head enabled ++ ['='] ++ s.after value := by
    simp only [edited, after, List.append_assoc, List.cons_append, List.nil_append]
  have hhead : (s.head enabled ++ ['='] ++ s.after value).head? ≠ some '\n' :=
    head_of_clear hne hclear
  have hsplit := Breaks.split_push hclear hne (s.after value)
  refine ⟨s.head enabled ++ ['='] ++ (lineBreaks.split (s.after value)).head?.getD [], ?_, ?_⟩
  · rw [out, hedited, Breaks.split_under s.lines hhead, hsplit]
  · rw [← Breaks.body_first hsplit, Breaks.body_append hclear, ← List.append_cons]

/-- The active assignments of the key after an edit. -/
theorem active_out (value : Option (List Char)) (enabled : Bool) {n : ℕ} :
    (∃ x ∈ parseEnvFile (s.out value enabled), x.key = key ∧ x.enabled = true ∧ x.line = n + 1) ↔
      if n < s.above.length then
        ∃ x ∈ parseEnvFile text, x.key = key ∧ x.enabled = true ∧ x.line = n + 1
      else if n = s.above.length then enabled = true
      else ∃ l, (lineBreaks.split (s.after value)).tail[n - s.above.length - 1]? = some l ∧
        Assigns key l := by
  obtain ⟨first, hlines, hbody⟩ := s.lines_out value enabled
  rw [assigns_iff, hlines]
  split
  case isTrue hlt =>
    rw [assigns_iff, s.lines, List.getElem?_append_left hlt, List.getElem?_append_left hlt]
  case isFalse hge =>
    rw [List.getElem?_append_right (Nat.le_of_not_lt hge)]
    split
    case isTrue hn =>
      rw [hn, Nat.sub_self, List.getElem?_cons_zero]
      have hmatch := s.matchLine_head enabled (lineBreaks.body (s.after value))
      rw [← hbody] at hmatch
      constructor
      · rintro ⟨l, hl, m, hm, _⟩
        cases hl
        cases enabled with
        | true => rfl
        | false =>
          rw [← Bool.not_false, matchLine_exclusive hmatch] at hm
          cases hm
      · rintro rfl
        exact ⟨first, rfl, _, hmatch, rfl⟩
    case isFalse hn =>
      obtain ⟨k, hk⟩ : ∃ k, n - s.above.length = k + 1 := ⟨n - s.above.length - 1, by omega⟩
      rw [hk, List.getElem?_cons_succ, Nat.add_sub_cancel]

/-- What no value leaves no active assignment of. -/
theorem unset_iff (he : effective (parseEnvFile text) key = some e) :
    Unset key (s.out none false) ↔ AtMostOne key text := by
  have hnumber := s.number
  obtain ⟨hmem, hkey⟩ := effective_spec he
  have hyields := effective_yields (parse_sorted text) he
  obtain ⟨gap, hgap, _⟩ := splitValue_append s.rest
  have htail : ∀ l ∈ (lineBreaks.split (s.after none)).tail, ¬Assigns key l := fun l hl =>
    s.not_assigns_below he l (s.tail_below (hgap.trans (List.append_assoc _ _ _)) l hl)
  have hactive : Unset key (s.out none false) ↔
      ∀ x ∈ parseEnvFile text, x.key = key → x.enabled = true → ¬x.line < e.line := by
    constructor
    · intro hunset x hx hxkey henabled hlt
      have hpos := (was_spec text x hx).1
      obtain ⟨y, hy, hykey, hyenabled, _⟩ := (s.active_out none false (n := x.line - 1)).mpr (by
        rw [if_pos (by omega)]
        exact ⟨x, hx, hxkey, henabled, by omega⟩)
      rw [hunset y hy hykey] at hyenabled
      cases hyenabled
    · intro hnone y hy hykey
      by_contra hyenabled
      have hyenabled : y.enabled = true := by simpa using hyenabled
      have hpos := (was_spec _ y hy).1
      have h := (s.active_out none false (n := y.line - 1)).mp
        ⟨y, hy, hykey, hyenabled, by omega⟩
      split at h
      case isTrue hlt =>
        obtain ⟨x, hx, hxkey, henabled, hline⟩ := h
        exact hnone x hx hxkey henabled (by omega)
      case isFalse =>
        split at h
        case isTrue => cases h
        case isFalse =>
          obtain ⟨l, hl, hassigns⟩ := h
          exact htail l (List.mem_of_getElem? hl) hassigns
  rw [hactive]
  constructor
  · -- an active assignment is on the line of the effective entry
    have hline : (∀ x ∈ parseEnvFile text, x.key = key → x.enabled = true → ¬x.line < e.line) →
        ∀ x ∈ parseEnvFile text, x.key = key → x.enabled = true → x = e := by
      intro hnone x hx hxkey henabled
      have hle := hyields x hx hxkey
      unfold Entry.Yields at hle
      split at hle
      · exact sorted_line_inj (parse_sorted text) hx hmem
          (le_antisymm (hle henabled) (Nat.le_of_not_lt (hnone x hx hxkey henabled)))
      · rw [henabled] at hle
        cases hle.1
    intro hnone x hx y hy hxkey hxenabled hykey hyenabled
    exact (hline hnone x hx hxkey hxenabled).trans (hline hnone y hy hykey hyenabled).symm
  · intro hone x hx hxkey henabled hlt
    have hle := hyields x hx hxkey
    unfold Entry.Yields at hle
    split at hle
    case isTrue hon =>
      obtain rfl := hone x hx e hmem hxkey henabled hkey hon
      exact Nat.lt_irrefl _ hlt
    case isFalse =>
      rw [henabled] at hle
      cases hle.1

/-- Where the last active assignment is after a value is set. -/
theorem lastIsEdited_iff (he : effective (parseEnvFile text) key = some e) {value : List Char}
    (hvalue : NoCrLf value) :
    LastIsEdited key (s.out (some value) true) e ↔ FirstLine key value := by
  have hnumber := s.number
  obtain ⟨gap, hgap, _⟩ := splitValue_append s.rest
  have htail := tail_literal hvalue fun l hl =>
    s.not_assigns_below he l (s.tail_below hgap l hl)
  have hafter : s.after (some value) = shellLiteral value ++
      ((splitValue s.rest).2 ++ s.newline ++ s.below.flatten) := by
    simp only [after, Match.tail, parts, Option.map_some, Option.getD_some, List.append_assoc]
  rw [firstLine_iff, ← htail, ← hafter]
  have hedited : ∃ x ∈ parseEnvFile (s.out (some value) true),
      x.line = e.line ∧ x.key = key ∧ x.enabled = true := by
    obtain ⟨x, hx, hkey, henabled, hline⟩ :=
      (s.active_out (some value) true (n := s.above.length)).mpr (by
        rw [if_neg (Nat.lt_irrefl _), if_pos rfl])
    exact ⟨x, hx, hline.trans hnumber.symm, hkey, henabled⟩
  refine (and_iff_right hedited).trans
    ⟨fun hlast l hl hassigns => ?_, fun hnone x hx hkey henabled => ?_⟩
  · obtain ⟨n, hn, rfl⟩ := List.getElem_of_mem hl
    obtain ⟨x, hx, hkey, henabled, hline⟩ :=
      (s.active_out (some value) true (n := s.above.length + n + 1)).mpr (by
        rw [if_neg (by omega), if_neg (by omega),
          show s.above.length + n + 1 - s.above.length - 1 = n by omega]
        exact ⟨_, List.getElem?_eq_getElem hn, hassigns⟩)
    have := hlast x hx hkey henabled
    omega
  · by_contra hlt
    have h := (s.active_out (some value) true (n := x.line - 1)).mp
      ⟨x, hx, hkey, henabled, by omega⟩
    rw [if_neg (by omega), if_neg (by omega)] at h
    obtain ⟨l, hl, hassigns⟩ := h
    exact hnone l (List.mem_of_getElem? hl) hassigns

/-- What an accepted operation on the key writes. -/
theorem written_out (he : effective (parseEnvFile text) key = some e)
    {value : Option (List Char)} {enabled : Bool} {path : List Char} {disk : Disk} {updates : Json}
    {expected : Option ℚ} {written : Written}
    (hops : normalizedUpdates updates = .ok [⟨key, none, .edit value enabled⟩])
    (ht : disk.text = some text)
    (h : applyEnvUpdates path disk updates expected = .ok written) :
    written.text = s.out value enabled := by
  obtain ⟨⟨w, hw⟩, _⟩ := applied_spec hops h ht
  obtain ⟨hloop, hwritten⟩ := updatedText_spec hw
  obtain ⟨w', hloop', hlines, happended⟩ := loop_edit (fileNewline text)
    ⟨lineBreaks.split text, [], [], [], []⟩ ⟨key, none, .edit value enabled⟩ rfl rfl he
  cases hloop.symm.trans hloop'
  rw [hwritten, rendered_lines happended, hlines, s.lines_modify, s.edit_eq, List.flatten_append,
    List.flatten_cons]
  rfl

end Spot

/-! ## The controls -/

theorem nodup_fieldMapping (entries : List Entry) :
    ((fieldMapping entries).map Prod.fst).Nodup := by
  have hsub : ∀ l : List (String × List (List Char)), ((l.filterMap fun x =>
      (x.2.find? fun candidate => entries.any fun e => e.key = candidate).map (x.1, ·)).map
        Prod.fst).Sublist (l.map Prod.fst) := by
    intro l
    induction l with
    | nil => exact List.Sublist.refl _
    | cons x l ih =>
      rw [List.filterMap_cons, List.map_cons]
      cases x.2.find? fun candidate => entries.any fun e => e.key = candidate with
      | none => exact ih.cons _
      | some candidate => exact ih.cons_cons _
  have hnodup : (controlEnvCandidates.map Prod.fst).Nodup := by decide
  exact hnodup.sublist (hsub controlEnvCandidates)

variable {entries : List Entry} {control : String}

theorem get_fieldMapping {key : List Char} (h : (control, key) ∈ fieldMapping entries) :
    Assoc.get (fieldMapping entries) control = some key ∧ ∃ x ∈ entries, x.key = key := by
  refine ⟨(Assoc.get_eq_some_iff (nodup_fieldMapping entries)).mpr h, ?_⟩
  obtain ⟨x, _, hx⟩ := List.mem_filterMap.mp h
  obtain ⟨candidate, hfind, heq⟩ := Option.map_eq_some_iff.mp hx
  obtain rfl := (Prod.mk.inj heq).2
  have hany : (entries.any fun e => decide (e.key = candidate)) :=
    List.find?_some (p := fun candidate => entries.any fun e => decide (e.key = candidate)) hfind
  obtain ⟨y, hy, hkey⟩ := List.any_eq_true.mp hany
  exact ⟨y, hy, of_decide_eq_true hkey⟩

theorem resolve_null {key : List Char} (h : Assoc.get (fieldMapping entries) control = some key) :
    resolveControlUpdates [(control, none)] none none entries = .ok [(key, unsetting)] := by
  simp only [resolveControlUpdates, List.foldlM_cons, List.foldlM_nil, resolveLaunchControl, h]
  rfl

theorem resolve_value {key value : List Char}
    (h : Assoc.get (fieldMapping entries) control = some key) (hne : value ≠ []) :
    resolveControlUpdates [(control, some value)] none none entries = .ok [(key, .text value)] := by
  obtain ⟨c, cs, rfl⟩ := List.exists_cons_of_ne_nil hne
  simp only [resolveControlUpdates, List.foldlM_cons, List.foldlM_nil, resolveLaunchControl, h]
  rfl

theorem normalized_unsetting {key : List Char} {ops : List Op}
    (h : normalizedUpdates (.object [(key, unsetting)]) = .ok ops) :
    ops = [⟨key, none, .edit none false⟩] := by
  refine normalized_single (fun op hop => ?_) h
  obtain ⟨hvalue, hkey, hline⟩ := get_entry key unsetting
  unfold normalizedOp at hop
  dsimp only at hop
  rw [hvalue, hkey, hline] at hop
  dsimp only at hop
  split at hop
  · split at hop
    · obtain ⟨line, hline, hop⟩ := bind_ok hop
      obtain ⟨change, hchange, hop⟩ := bind_ok hop
      cases hline
      cases hchange
      cases hop
      rfl
    · cases hop
  · cases hop

theorem applied_normalized {path : List Char} {disk : Disk} {updates : Json} {expected : Option ℚ}
    {written : Written} (h : applyEnvUpdates path disk updates expected = .ok written) :
    ∃ ops, normalizedUpdates updates = .ok ops := by
  unfold applyEnvUpdates at h
  split at h
  · cases h
  · obtain ⟨ops, hops, _⟩ := bind_ok h
    exact ⟨ops, hops⟩

/-- For every text and every control that it backs: without a value no active assignment is left
exactly when there is at most one, and with a value the last active one is the edited one exactly
when the value assigns to the variable on its first line only. -/
theorem controls_iff {control : String} {text key : List Char}
    (hkey : (control, key) ∈ fieldMapping (parseEnvFile text)) :
    ∃ e, effective (parseEnvFile text) key = some e ∧
      resolveControlUpdates [(control, none)] none none (parseEnvFile text) =
        .ok [(key, unsetting)] ∧
      (∀ value, value ≠ [] → resolveControlUpdates [(control, some value)] none none
        (parseEnvFile text) = .ok [(key, .text value)]) ∧
      (∀ path disk expected written, disk.text = some text →
        applyEnvUpdates path disk (.object [(key, unsetting)]) expected = .ok written →
        (Unset key written.text ↔ AtMostOne key text)) ∧
      ∀ value path disk expected written, disk.text = some text →
        applyEnvUpdates path disk (.object [(key, .text value)]) expected = .ok written →
        (LastIsEdited key written.text e ↔ FirstLine key value) := by
  obtain ⟨hget, hex⟩ := get_fieldMapping hkey
  obtain ⟨e, he⟩ := effective_isSome hex
  obtain ⟨hmem, hekey⟩ := effective_spec he
  subst hekey
  obtain ⟨s⟩ := spot_of_entry hmem
  refine ⟨e, he, resolve_null hget, fun value => resolve_value hget,
    fun path disk expected written ht h => ?_, fun value path disk expected written ht h => ?_⟩
  · obtain ⟨ops, hops⟩ := applied_normalized h
    obtain rfl := normalized_unsetting hops
    rw [s.written_out he hops ht h]
    exact s.unset_iff he
  · obtain ⟨ops, hops⟩ := applied_normalized h
    obtain rfl := normalized_setting hops
    have hvalue : NoCrLf value :=
      (normalizedUpdates_spec hops _ List.mem_cons_self).2 value true rfl
    rw [s.written_out he hops ht h]
    exact s.lastIsEdited_iff he hvalue

/-! ## Runs -/

instance (key out : List Char) : Decidable (Unset key out) :=
  inferInstanceAs (Decidable (∀ x ∈ parseEnvFile out, x.key = key → x.enabled = false))

instance (key out : List Char) (e : Entry) : Decidable (LastIsEdited key out e) :=
  inferInstanceAs (Decidable ((∃ x ∈ parseEnvFile out,
      x.line = e.line ∧ x.key = key ∧ x.enabled) ∧
    ∀ x ∈ parseEnvFile out, x.key = key → x.enabled → x.line ≤ e.line))

instance (key text : List Char) : Decidable (AtMostOne key text) :=
  inferInstanceAs (Decidable (∀ x ∈ parseEnvFile text, ∀ y ∈ parseEnvFile text,
    x.key = key → x.enabled → y.key = key → y.enabled → x = y))

instance (key value : List Char) : Decidable (FirstLine key value) :=
  inferInstanceAs (Decidable (∀ x ∈ parseEnvFile value,
    x.key = key → x.enabled → x.line = 1))

def backed : List Char := "# MAX_NUM_SEQS=4\nMAX_NUM_SEQS=8\n# MAX_NUM_SEQS=2\n".toList

/-- A variable that is assigned once and commented out twice. -/
theorem controls_backed : ∃ unset set,
    applied backed (.object [("MAX_NUM_SEQS".toList, unsetting)]) = .ok unset ∧
    Unset "MAX_NUM_SEQS".toList unset.text ∧
    applied backed (.object [("MAX_NUM_SEQS".toList, .text "16".toList)]) = .ok set ∧
    LastIsEdited "MAX_NUM_SEQS".toList set.text ⟨"MAX_NUM_SEQS".toList, "8".toList, true, 2⟩ := by
  obtain ⟨unset, _, hunset, _, _⟩ := of_appliedIs (fun _ _ _ => true) backed
    (.object [("MAX_NUM_SEQS".toList, unsetting)]) (by decide +kernel)
  obtain ⟨set, _, hset, _, _⟩ := of_appliedIs (fun _ _ _ => true) backed
    (.object [("MAX_NUM_SEQS".toList, .text "16".toList)]) (by decide +kernel)
  have hmapping : ("max_concurrency", "MAX_NUM_SEQS".toList) ∈
      fieldMapping (parseEnvFile backed) := by decide +kernel
  obtain ⟨e, he, _, _, hnull, hvalue⟩ := controls_iff hmapping
  obtain rfl : e = ⟨"MAX_NUM_SEQS".toList, "8".toList, true, 2⟩ :=
    Option.some.inj (he.symm.trans (by decide +kernel))
  exact ⟨unset, set, hunset, (hnull _ _ _ _ rfl hunset).mpr (by decide +kernel), hset,
    (hvalue _ _ _ _ _ rfl hset).mpr (by decide +kernel)⟩

def duplicated : List Char := "MAX_NUM_SEQS=4\nMAX_NUM_SEQS=8\n".toList

/-- A variable that is assigned twice: the first assignment stays. And a value with a vertical tab
assigns to its variable below the edited line. -/
theorem unset_duplicate : (∃ written,
      resolveControlUpdates [("max_concurrency", none)] none none (parseEnvFile duplicated) =
        .ok [("MAX_NUM_SEQS".toList, unsetting)] ∧
      applied duplicated (.object [("MAX_NUM_SEQS".toList, unsetting)]) = .ok written ∧
      written.text = "MAX_NUM_SEQS=4\n# MAX_NUM_SEQS=8\n".toList ∧
      ¬Unset "MAX_NUM_SEQS".toList written.text) ∧
    ∃ written, applied backed (.object [("MAX_NUM_SEQS".toList,
        .text "16\x0bMAX_NUM_SEQS=1".toList)]) = .ok written ∧
      ¬LastIsEdited "MAX_NUM_SEQS".toList written.text
        ⟨"MAX_NUM_SEQS".toList, "8".toList, true, 2⟩ := by
  constructor
  · obtain ⟨written, _, hwritten, _, htext⟩ := of_appliedIs
      (fun _ _ out => decide (out = "MAX_NUM_SEQS=4\n# MAX_NUM_SEQS=8\n".toList)) duplicated
      (.object [("MAX_NUM_SEQS".toList, unsetting)]) (by decide +kernel)
    refine ⟨written, resolve_null (by decide +kernel), hwritten, of_decide_eq_true htext, ?_⟩
    rw [of_decide_eq_true htext]
    decide +kernel
  · obtain ⟨written, _, hwritten, _, hlast⟩ := of_appliedIs
      (fun _ _ out => decide (¬LastIsEdited "MAX_NUM_SEQS".toList out
        ⟨"MAX_NUM_SEQS".toList, "8".toList, true, 2⟩)) backed
      (.object [("MAX_NUM_SEQS".toList, .text "16\x0bMAX_NUM_SEQS=1".toList)]) (by decide +kernel)
    exact ⟨written, hwritten, of_decide_eq_true hlast⟩

end SparkDeck.EnvFile
