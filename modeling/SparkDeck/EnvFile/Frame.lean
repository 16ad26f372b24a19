import Mathlib.Data.List.Sublists
import SparkDeck.EnvFile.Edit

/-!
# What an edit of an env file leaves alone

`Frame` says it of a text, the operations and the new text; `Separate` is when it holds.
`updates_frame` shows that it holds for no other accepted update.
-/

namespace SparkDeck.EnvFile

/-! ## The lines that are asked for -/

/-- The operation is for the line at an index. -/
def Op.isFor (entries : List Entry) (i : ℕ) (op : Op) : Bool :=
  match op.entry entries with
  | .ok (some e) => e.line = i + 1
  | _ => false

/-- The operation is for a key that the file does not have. -/
def Op.isNew (entries : List Entry) (op : Op) : Bool :=
  match op.entry entries with
  | .ok none => true
  | _ => false

def Op.deletes (op : Op) : Bool := op.change = .delete

/-- The last of the operations for a line deletes it. -/
def gone (ops : List Op) : Bool := ops.getLast?.any Op.deletes

def changeLine (wasEnabled : Bool) (line : List Char) (op : Op) : List Char :=
  match op.change with
  | .delete => []
  | .edit value enabled => editLine wasEnabled op.key value enabled line

/-- What its own operations make of a line. -/
def rewritten (wasEnabled : Bool) (ops : List Op) (line : List Char) : List Char :=
  ops.foldl (changeLine wasEnabled) line

/-- A line of the file is an active assignment. -/
def wasEnabled (line : List Char) : Bool := (matchActive (lineBreaks.body line)).isSome

section plan

variable (text : List Char) (ops : List Op)

def onLine (i : ℕ) : List Op := ops.filter (Op.isFor (parseEnvFile text) i)

def additions : List Op := ops.filter (Op.isNew (parseEnvFile text))

def fileNewline : List Char := dominantNewline (lineBreaks.split text)

def addedLine (op : Op) : Option (List Char) :=
  match op.change with
  | .edit value enabled => some (appendedLine (fileNewline text) op.key value enabled)
  | .delete => none

/-- The lines that are not deleted, each with its index. -/
def survivors : List (List Char × ℕ) :=
  (lineBreaks.split text).zipIdx.filter fun x => !gone (onLine text ops x.2)

/-- A last line without a terminator gets one if lines are appended. -/
def ending (line : List Char) : List Char :=
  if lineBreaks.term line = [] ∧ additions text ops ≠ [] then fileNewline text else []

/-- What its own operations leave of a line. -/
def left (x : List Char × ℕ) : List Char :=
  rewritten (wasEnabled x.1) (onLine text ops x.2) x.1

def piece (x : List Char × ℕ) : List Char := left text ops x ++ ending text ops x.1

/-- The lines of the new text are those that are not deleted, each changed by its own operations
only, and then the appended ones; each has the terminator that it had. -/
structure Frame (out : List Char) : Prop where
  lines : lineBreaks.split out =
    (survivors text ops).map (piece text ops) ++ (additions text ops).filterMap (addedLine text)
  ends : ∀ x ∈ survivors text ops,
    lineBreaks.term (piece text ops x) = lineBreaks.term x.1 ++ ending text ops x.1

/-- What is after the `=` of a line, and whether the pattern of its entry still matches. -/
structure Tail where
  matched : Bool
  text : List Char

def Tail.step (wasEnabled : Bool) (t : Tail) (op : Op) : Tail :=
  match op.change with
  | .delete => ⟨false, []⟩
  | .edit value enabled =>
    if t.matched then
      ⟨enabled == wasEnabled,
        (value.map shellLiteral).getD (splitValue t.text).1 ++ (splitValue t.text).2⟩
    else ⟨enabled == wasEnabled, (value.map shellLiteral).getD []⟩

/-- The values that are submitted for a line, or kept, leave after its `=` no line break but the one
at its end; a line that was deleted before has none to lose. -/
structure TailKept (line : List Char) (ops : List Op) : Prop where
  text : ∃ m, matchLine (wasEnabled line) (line.rdropWhile isCrLf) = some m ∧
    ∃ b, lineBreaks.Clear b ∧
      (ops.foldl (Tail.step (wasEnabled line)) ⟨true, m.rest⟩).text =
        b ++ lineBreaks.term (line.rdropWhile isCrLf)
  deleted : (∃ op ∈ ops, op.deletes) → line.rtakeWhile isCrLf = []

/-- When the lines stay apart. -/
structure Separate : Prop where
  tails : ∀ x ∈ survivors text ops, onLine text ops x.2 ≠ [] → TailKept x.1 (onLine text ops x.2)
  /-- No CR comes before an LF that it was not before. -/
  joins : (survivors text ops).IsChain fun a b =>
    lineBreaks.term a.1 = ['\r'] → b.1.head? ≠ some '\n'
  added : ∀ op ∈ additions text ops, ∀ value enabled, op.change = .edit (some value) enabled →
    lineBreaks.Clear value
  last : additions text ops ≠ [] → ∀ x ∈ (lineBreaks.split text).zipIdx.getLast?,
    gone (onLine text ops x.2) = false ∧ (lineBreaks.term x.1 = [] ∨ endsLine x.1 = true)

end plan

/-! ## The edits of one line -/

/-- A submitted value that has been accepted. -/
def Op.Sane (op : Op) : Prop :=
  isKeyName op.key = true ∧ ∀ value enabled, op.change = .edit (some value) enabled → NoCrLf value

/-- The line as the edits have left it: what is before its value, the value and what follows. -/
structure AsWritten (was : Bool) (key pre tail : List Char) (matched : Bool) : Prop where
  clear : lineBreaks.Clear pre
  ne : pre ≠ []
  noCrLf : NoCrLf tail
  pattern : if matched then ∃ m, matchLine was (pre ++ tail) = some m ∧ m.key = key ∧
    m.rest = tail ∧ lineBreaks.Clear m.indent else matchLine was (pre ++ tail) = none

variable {enabled : Bool}

theorem matchLine_marker {indent exported key : List Char}
    (hindent : ∀ c ∈ indent, isSpace c) (hexport : IsExport exported)
    (hkey : isKeyName key) (tail : List Char) :
    matchLine enabled (indent ++ marker enabled ++ exported ++ key ++ '=' :: tail) =
      some ⟨indent, exported, key, tail⟩ := by
  refine matchLine_iff.mpr ⟨hindent, marker enabled, exported ++ (key ++ [] ++ '=' :: tail), ?_,
    ⟨hexport, _, rfl, hkey, [], nofun, rfl⟩, ?_⟩
  · simp only [List.append_assoc, List.nil_append]
  · cases enabled with
    | true => rfl
    | false => exact ⟨[' '], List.forall_mem_cons.mpr ⟨by decide, nofun⟩, rfl⟩

/-- The form that an edit gives a line. -/
theorem written_form (was enabled : Bool) {indent exported key tail : List Char}
    (hindent : ∀ c ∈ indent, isSpace c) (hclear : lineBreaks.Clear indent)
    (hexport : IsExport exported) (hkey : isKeyName key) (htail : NoCrLf tail) :
    AsWritten was key (indent ++ marker enabled ++ exported ++ key ++ ['=']) tail
      (enabled == was) := by
  have hline : indent ++ marker enabled ++ exported ++ key ++ ['='] ++ tail =
      indent ++ marker enabled ++ exported ++ key ++ '=' :: tail := by
    rw [List.append_assoc _ ['='], List.singleton_append]
  have hmatch : matchLine enabled (indent ++ marker enabled ++ exported ++ key ++ '=' :: tail) = _ :=
    matchLine_marker hindent hexport hkey tail
  refine ⟨?_, by simp, htail, ?_⟩
  · refine Breaks.Clear.append (Breaks.Clear.append (Breaks.Clear.append
      (Breaks.Clear.append hclear (clear_marker enabled)) (clear_export hexport))
      (clear_name hkey)) ?_
    exact List.forall_mem_cons.mpr ⟨by decide, nofun⟩
  · rw [hline]
    split
    · next he =>
      rw [← eq_of_beq he]
      exact ⟨_, hmatch, rfl, rfl, hclear⟩
    · next he =>
      have hne : was = !enabled := by
        cases was <;> cases enabled <;> simp_all
      rw [hne]
      exact matchLine_exclusive hmatch

theorem noCrLf_split {raw : List Char} (h : NoCrLf raw) :
    NoCrLf (splitValue raw).1 ∧ NoCrLf (splitValue raw).2 := by
  obtain ⟨gap, hraw, _⟩ := splitValue_append raw
  refine ⟨fun c hc => h c ?_, fun c hc => h c ?_⟩
  · rw [hraw]
    exact List.mem_append_left _ (List.mem_append_right _ hc)
  · rw [hraw]
    exact List.mem_append_right _ hc

variable {value : Option (List Char)} {op : Op}

theorem noCrLf_value (h : op.Sane) (hc : op.change = .edit value enabled) {old : List Char}
    (hold : NoCrLf old) : NoCrLf ((value.map shellLiteral).getD old) := by
  cases value with
  | none => exact hold
  | some v => exact noCrLf_literal (h.2 v enabled hc)

variable {was : Bool}

/-- An edit of a line that has been written. -/
theorem AsWritten.edit {key pre tail t : List Char} {matched : Bool}
    (h : AsWritten was key pre tail matched) (ht : ∀ c ∈ t, isCrLf c) (hop : op.Sane)
    (hkey : op.key = key) (hc : op.change = .edit value enabled) :
    ∃ pre', changeLine was (pre ++ tail ++ t) op =
        pre' ++ (Tail.step was ⟨matched, tail⟩ op).text ++ t ∧
      AsWritten was key pre' (Tail.step was ⟨matched, tail⟩ op).text
        (Tail.step was ⟨matched, tail⟩ op).matched := by
  obtain ⟨hdrop, htake⟩ := strip_append ((noCrLf_of_clear h.clear).append h.noCrLf) ht
  have hpattern := h.pattern
  subst hkey
  unfold changeLine Tail.step
  rw [hc]
  dsimp only
  unfold editLine
  rw [hdrop, htake]
  split at hpattern
  · next hm =>
    obtain ⟨m, hmatch, hmkey, hrest, hclear⟩ := hpattern
    obtain ⟨hindent, _, _, _, ⟨hexport, _, _, _, _, _, _⟩, _⟩ := matchLine_iff.mp hmatch
    have hsplit := noCrLf_split h.noCrLf
    rw [if_pos hm, hmatch]
    dsimp only
    rw [hrest]
    refine ⟨_, ?_, written_form was enabled hindent hclear hexport hop.1
      ((noCrLf_value hop hc hsplit.1).append hsplit.2)⟩
    simp only [List.append_assoc, List.cons_append, List.nil_append]
  · next hm =>
    rw [if_neg hm, hpattern]
    have hform : AsWritten was op.key ([] ++ marker enabled ++ [] ++ op.key ++ ['='])
        ((value.map shellLiteral).getD []) (enabled == was) :=
      written_form was enabled nofun nofun (Or.inl rfl) hop.1 (noCrLf_value hop hc nofun)
    refine ⟨_, ?_, hform⟩
    simp only [List.append_assoc, List.cons_append, List.nil_append]

/-- A line that has been deleted is nothing, or is written anew. -/
inductive LineState (was : Bool) (key t : List Char) (tail : Tail) (line : List Char) : Prop
  | erased (line_eq : line = []) (tail_eq : tail = ⟨false, []⟩) (end_eq : t = [])
  | text (pre : List Char) (line_eq : line = pre ++ tail.text ++ t)
      (written : AsWritten was key pre tail.text tail.matched)

variable {line : List Char}

theorem changeLine_delete (h : op.deletes) :
    changeLine was line op = [] ∧ ∀ tail, Tail.step was tail op = ⟨false, []⟩ := by
  have hc : op.change = .delete := of_decide_eq_true h
  unfold changeLine Tail.step
  rw [hc]
  exact ⟨rfl, fun _ => rfl⟩

theorem edit_of_not_deletes (h : ¬op.deletes) :
    ∃ value enabled, op.change = .edit value enabled := by
  cases hc : op.change with
  | delete => exact absurd (decide_eq_true hc) h
  | edit value enabled => exact ⟨value, enabled, rfl⟩

/-- One operation; what ends the line goes with a deletion. -/
theorem LineState.step {key t : List Char} {tail : Tail} (h : LineState was key t tail line)
    (hname : isKeyName key) (ht : ∀ c ∈ t, isCrLf c) (hop : op.Sane)
    (hkey : op.key = key) :
    LineState was key (if op.deletes then [] else t) (Tail.step was tail op)
      (changeLine was line op) := by
  by_cases hd : op.deletes
  · obtain ⟨hline, htail⟩ : changeLine was line op = [] ∧ _ := changeLine_delete hd
    rw [if_pos hd]
    exact .erased hline (htail tail) rfl
  · obtain ⟨value, enabled, hc⟩ := edit_of_not_deletes hd
    rw [if_neg hd]
    cases h with
    | erased hline htail hend =>
      subst hline htail hend hkey
      refine .text ([] ++ marker enabled ++ [] ++ op.key ++ ['=']) ?_ ?_
      · unfold changeLine Tail.step
        rw [hc]
        unfold editLine
        have hnone : matchLine was (List.rdropWhile isCrLf []) = none := by
          cases was <;> rfl
        rw [hnone]
        simp [List.rtakeWhile]
      · unfold Tail.step
        rw [hc]
        exact written_form was enabled nofun nofun (Or.inl rfl) hname (noCrLf_value hop hc nofun)
    | text pre hline hwritten =>
      obtain ⟨pre', hnew, hwritten'⟩ := hwritten.edit ht hop hkey hc
      rw [hline]
      exact .text pre' hnew hwritten'

/-- All the operations on a line. -/
theorem LineState.run {key t : List Char} {tail : Tail} (h : LineState was key t tail line)
    (hname : isKeyName key) (ht : ∀ c ∈ t, isCrLf c) {ops : List Op}
    (hops : ∀ op ∈ ops, op.Sane ∧ op.key = key) :
    LineState was key (if ops.any Op.deletes then [] else t) (ops.foldl (Tail.step was) tail)
      (rewritten was ops line) := by
  induction ops generalizing t tail line with
  | nil => exact h
  | cons op ops ih =>
    obtain ⟨⟨hop, hkey⟩, hops⟩ := List.forall_mem_cons.mp hops
    have hstep := h.step hname ht hop hkey
    have hrun := ih hstep (fun c hc => ?_) hops
    · by_cases hd : op.deletes
      · simpa [hd, rewritten] using hrun
      · simpa [hd, rewritten] using hrun
    · split at hc
      · cases hc
      · exact ht c hc

theorem editLine_ne {was enabled : Bool} {key line : List Char} :
    editLine was key value enabled line ≠ [] := by
  unfold editLine
  split
  · simp
  · simp

theorem gone_concat (ops : List Op) (op : Op) : gone (ops ++ [op]) = op.deletes := by
  unfold gone
  rw [List.getLast?_concat]
  rfl

/-- A line is there in the end unless its last operation deletes it. -/
theorem rewritten_eq_nil_iff (hline : line ≠ []) (ops : List Op) :
    rewritten was ops line = [] ↔ gone ops := by
  cases ops using List.reverseRecOn with
  | nil => exact ⟨fun h => absurd h hline, nofun⟩
  | append_singleton ops op =>
    rw [gone_concat]
    unfold rewritten
    rw [List.foldl_append]
    constructor
    · intro h
      by_contra hd
      obtain ⟨value, enabled, hc⟩ := edit_of_not_deletes hd
      rw [List.foldl_cons, List.foldl_nil, changeLine, hc] at h
      exact editLine_ne h
    · intro hd
      exact (changeLine_delete hd).1

/-- What is before a value. -/
theorem matchLine_prefix {m : Match} (h : matchLine enabled line = some m) :
    isKeyName m.key ∧ ∃ pre, line = pre ++ m.rest ∧ pre ≠ [] ∧ ∃ t, pre = m.indent ++ t := by
  obtain ⟨_, hash, _, rfl, ⟨_, _, rfl, hname, blanks, _, rfl⟩, _⟩ := matchLine_iff.mp h
  refine ⟨hname, m.indent ++ hash ++ (m.exported ++ (m.key ++ blanks ++ ['='])), ?_, by simp, _,
    List.append_assoc _ _ _⟩
  simp only [List.append_assoc, List.cons_append, List.nil_append]

/-- A line of the file, as the edits find it. -/
theorem lineState_first {l b x t : List Char} {m : Match} (h : Parts l b x t)
    (hm : matchLine was b = some m) : LineState was m.key t ⟨true, m.rest ++ x⟩ l := by
  obtain ⟨_, pre, hb, hne, u, hpre⟩ := matchLine_prefix hm
  have hclear := h.clear
  rw [hb] at hclear
  refine .text pre ?_ ⟨hclear.left, hne, (noCrLf_of_clear hclear.right).append h.other, ?_⟩
  · rw [h.line, hb]
    simp only [List.append_assoc]
  · rw [if_pos rfl, ← List.append_assoc, ← hb]
    exact ⟨_, matchLine_append hm x, rfl, rfl, (hpre ▸ hclear.left).left⟩

/-- A terminator is what is added to one. -/
theorem term_append_crLf (l : List Char) {t : List Char} (ht : ∀ c ∈ t, isCrLf c) :
    lineBreaks.term (l ++ t) = lineBreaks.term l ++ t := by
  conv_lhs => rw [← Breaks.body_append_term (E := lineBreaks) l, List.append_assoc,
    Breaks.term_append (Breaks.clear_body l)]
  rcases Breaks.term_cases (E := lineBreaks) l with hterm | ⟨c, u, hsep, hterm⟩
  · rw [hterm]
    cases t with
    | nil => rfl
    | cons c t => exact Breaks.term_cons_of_sep (sep_of_crLf (ht c List.mem_cons_self)) t
  · rw [hterm]
    exact Breaks.term_cons_of_sep hsep _

/-- When a line keeps its terminator. -/
theorem term_iff {l b x t e : List Char} {m : Match} {ops : List Op} (h : Parts l b x t)
    (hm : matchLine (wasEnabled l) b = some m) (hops : ∀ op ∈ ops, op.Sane ∧ op.key = m.key)
    (hgone : gone ops = false) (he : ∀ c ∈ e, isCrLf c = true) :
    lineBreaks.term (rewritten (wasEnabled l) ops l ++ e) = lineBreaks.term l ++ e ↔
      TailKept l ops := by
  obtain ⟨hname, pre, hpre, hne, _⟩ := matchLine_prefix hm
  have hrun := (lineState_first h hm).run hname h.crLf hops
  obtain ⟨hdrop, htake⟩ := h.strip
  have hother : lineBreaks.term (b ++ x) = x :=
    (Breaks.term_append h.clear x).trans h.other_term
  have hmatch := matchLine_append hm x
  -- the condition in terms of the parts
  have hkept : TailKept l ops ↔
      (∃ c, lineBreaks.Clear c ∧
        (ops.foldl (Tail.step (wasEnabled l)) ⟨true, m.rest ++ x⟩).text = c ++ x) ∧
      (ops.any Op.deletes → t = []) := by
    constructor
    · rintro ⟨⟨m', hm', c, hc, htext⟩, hdeleted⟩
      rw [hdrop, hmatch] at hm'
      cases hm'
      rw [hdrop, hother] at htext
      rw [htake] at hdeleted
      exact ⟨⟨c, hc, htext⟩, fun ha => hdeleted (List.any_eq_true.mp ha)⟩
    · rintro ⟨⟨c, hc, htext⟩, hdeleted⟩
      refine ⟨⟨_, hdrop ▸ hmatch, c, hc, ?_⟩, fun hd => ?_⟩
      · rw [hdrop, hother]
        exact htext
      · rw [htake]
        exact hdeleted (List.any_eq_true.mpr hd)
  rw [hkept, h.term]
  generalize ops.foldl (Tail.step (wasEnabled l)) ⟨true, m.rest ++ x⟩ = tail at hrun ⊢
  cases hrun with
  | erased hline _ _ =>
    have hl : l ≠ [] := by
      rw [h.line, hpre]
      simp [hne]
    rw [(rewritten_eq_nil_iff hl ops).mp hline] at hgone
    cases hgone
  | text pre' hline hwritten =>
    have hcrLf : ∀ c ∈ (if ops.any Op.deletes then [] else t), isCrLf c := by
      intro c hc
      split at hc
      · cases hc
      · exact h.crLf c hc
    rw [hline, term_append_crLf _ he, term_append_crLf _ hcrLf, Breaks.term_append hwritten.clear,
      List.append_left_inj]
    have hnoCrLf : NoCrLf (lineBreaks.term tail.text) := fun c hc =>
      hwritten.noCrLf c ((List.dropWhile_sublist _).mem hc)
    constructor
    · intro heq
      obtain ⟨hdrop₁, htake₁⟩ := strip_append hnoCrLf hcrLf
      obtain ⟨hdrop₂, htake₂⟩ := strip_append h.other h.crLf
      rw [heq, hdrop₂] at hdrop₁
      rw [heq, htake₂] at htake₁
      refine ⟨⟨_, Breaks.clear_body tail.text, ?_⟩, fun ha => ?_⟩
      · rw [hdrop₁, Breaks.body_append_term]
      · rw [if_pos ha] at htake₁
        exact htake₁
    · rintro ⟨⟨c, hc, htext⟩, hdeleted⟩
      rw [htext, Breaks.term_append hc, h.other_term]
      split
      · next ha => rw [hdeleted ha]
      · rfl

/-! ## The loop -/

variable {e : Entry}

theorem entryOf_spec {n : ℕ} (h : entryOf n line = some e) :
    e.line = n ∧ e.enabled = (matchActive line).isSome ∧
      ∃ m, matchLine e.enabled line = some m ∧ m.key = e.key ∧ e.value = (splitValue m.rest).1 := by
  unfold entryOf at h
  split at h
  · next m hm =>
    cases h
    refine ⟨rfl, by rw [hm]; rfl, m, ?_, rfl, rfl⟩
    rw [matchLine, if_pos rfl, hm]
  · next hnone =>
    split at h
    · next m hm =>
      cases h
      refine ⟨rfl, by rw [hnone]; rfl, m, ?_, rfl, rfl⟩
      rw [matchLine, if_neg Bool.false_ne_true, hm]
    · cases h

theorem mem_parse_iff {text : List Char} :
    e ∈ parseEnvFile text ↔ ∃ i l, (lineBreaks.split text)[i]? = some l ∧
      entryOf (i + 1) (lineBreaks.body l) = some e := by
  unfold parseEnvFile
  rw [List.mem_filterMap]
  constructor
  · rintro ⟨⟨l, n⟩, hmem, he⟩
    obtain ⟨hle, hget⟩ := List.mem_zipIdx_iff_le_and_getElem?_sub.mp hmem
    refine ⟨n - 1, l, hget, ?_⟩
    rw [Nat.sub_add_cancel hle]
    exact he
  · rintro ⟨i, l, hget, he⟩
    exact ⟨(l, i + 1), List.mem_zipIdx_iff_le_and_getElem?_sub.mpr ⟨by omega, hget⟩, he⟩

variable {entries : List Entry}

theorem effective_spec {key : List Char} (h : effective entries key = some e) :
    e ∈ entries ∧ e.key = key := by
  have hfold : ∀ x ∈ effective entries key, x ∈ entries ∧ x.key = key := by
    refine List.foldlRecOn (motive := fun found : Option Entry =>
      ∀ x ∈ found, x ∈ entries ∧ x.key = key) entries _ ?_ ?_
    · intro x hx
      cases hx
    · intro found hfound entry hentry x hx
      split at hx
      · next hk =>
        split at hx
        · exact Option.some.inj hx ▸ ⟨hentry, hk⟩
        · split at hx
          · exact Option.some.inj hx ▸ ⟨hentry, hk⟩
          · exact Option.some.inj hx ▸ hfound _ rfl
      · exact hfound x hx
  exact hfold e h

theorem entry_spec (h : op.entry entries = .ok (some e)) : e ∈ entries ∧ e.key = op.key := by
  unfold Op.entry at h
  split at h
  · split at h
    · next e' he =>
      split at h
      · next hk =>
        cases h
        exact ⟨List.mem_of_find?_eq_some he, hk⟩
      · cases h
    · cases h
  · exact effective_spec (Except.ok.inj h)

/-- One turn of the loop changes the line that it is for, or appends one. -/
theorem turn_spec {newline : List Char} {w w' : Work} {was : ℕ → Bool}
    (hwas : ∀ e ∈ entries, e.line ≠ 0 ∧ e.enabled = was (e.line - 1))
    (h : w.turn newline entries op = .ok w') :
    (∀ i, w'.lines[i]? = w.lines[i]?.map fun l =>
      if op.isFor entries i then changeLine (was i) l op else l) ∧
    w'.appended = w.appended ++ (if op.isNew entries then
      (match op.change with
      | .edit value enabled => [appendedLine newline op.key value enabled]
      | .delete => []) else []) ∧
    (op.isNew entries = true → op.deletes = false) := by
  unfold Work.turn at h
  cases he : op.entry entries with
  | error x =>
    rw [he] at h
    cases hc : op.change <;> rw [hc] at h <;> cases h
  | ok e? =>
    rw [he] at h
    cases e? with
    | none =>
      have hfor : ∀ i, op.isFor entries i = false := fun i => by rw [Op.isFor, he]
      have hnew : op.isNew entries := by rw [Op.isNew, he]
      simp only [hfor, hnew]
      cases hc : op.change with
      | delete =>
        rw [hc] at h
        cases h
      | edit value enabled =>
        rw [hc] at h
        cases h
        refine ⟨fun i => ?_, rfl, fun _ => ?_⟩
        · simp
        · rw [Op.deletes, hc]
          rfl
    | some e =>
      obtain ⟨hline, henabled⟩ := hwas e (entry_spec he).1
      have hfor : ∀ i, op.isFor entries i = decide (e.line = i + 1) := fun i => by rw [Op.isFor, he]
      have hnew : op.isNew entries = false := by rw [Op.isNew, he]
      have hidx : ∀ i, e.line = i + 1 ↔ e.line - 1 = i := fun i => by omega
      simp only [hfor, hnew, decide_eq_true_eq, hidx]
      cases hc : op.change with
      | delete =>
        rw [hc] at h
        cases h
        refine ⟨fun i => ?_, by simp, nofun⟩
        rw [List.getElem?_set']
        simp only [changeLine, hc]
        split
        · rfl
        · rw [Option.map_id']
      | edit value enabled =>
        rw [hc] at h
        cases h
        refine ⟨fun i => ?_, by simp, nofun⟩
        rw [List.getElem?_modify, Option.map_eq_map]
        simp only [changeLine, hc]
        split
        · next hi => rw [henabled, hi]
        · rfl

/-- The lines after the loop, and what is appended. -/
theorem loop_spec {newline : List Char} {w w' : Work} {ops : List Op} {was : ℕ → Bool}
    (hwas : ∀ e ∈ entries, e.line ≠ 0 ∧ e.enabled = was (e.line - 1))
    (h : ops.foldlM (Work.turn newline entries) w = .ok w') :
    (∀ i, w'.lines[i]? = w.lines[i]?.map (rewritten (was i) (ops.filter (Op.isFor entries i)))) ∧
    w'.appended = w.appended ++ (ops.filter (Op.isNew entries)).filterMap (fun op =>
      match op.change with
      | .edit value enabled => some (appendedLine newline op.key value enabled)
      | .delete => none) ∧
    (∀ op ∈ ops, op.isNew entries = true → op.deletes = false) := by
  induction ops generalizing w with
  | nil =>
    cases h
    exact ⟨fun i => Option.map_id'.symm, (List.append_nil _).symm, nofun⟩
  | cons op ops ih =>
    rw [List.foldlM_cons] at h
    cases hturn : w.turn newline entries op with
    | error x =>
      rw [hturn] at h
      cases h
    | ok w₁ =>
      rw [hturn] at h
      obtain ⟨hlines, happended, hnew⟩ := turn_spec hwas hturn
      obtain ⟨hlines', happended', hnew'⟩ := ih h
      refine ⟨fun i => ?_, ?_, List.forall_mem_cons.mpr ⟨hnew, hnew'⟩⟩
      · rw [hlines', hlines, Option.map_map, List.filter_cons]
        congr 1
        funext l
        by_cases hf : op.isFor entries i
        · simp [hf, rewritten]
        · simp [hf]
      · rw [happended', happended, List.filter_cons, List.append_assoc]
        congr 1
        by_cases hn : op.isNew entries
        · rw [if_pos hn, if_pos hn, List.filterMap_cons]
          cases op.change <;> rfl
        · rw [if_neg hn, if_neg hn, List.nil_append]

section accepted

variable {text : List Char} {ops : List Op}

/-- The line at an index is an active assignment. -/
def wasAt (text : List Char) (i : ℕ) : Bool :=
  ((lineBreaks.split text)[i]?.map wasEnabled).getD false

theorem was_spec (text : List Char) :
    ∀ e ∈ parseEnvFile text, e.line ≠ 0 ∧ e.enabled = wasAt text (e.line - 1) := by
  intro e he
  obtain ⟨i, l, hget, hentry⟩ := mem_parse_iff.mp he
  obtain ⟨hline, henabled, _⟩ := entryOf_spec hentry
  rw [hline, Nat.add_sub_cancel, wasAt, hget]
  exact ⟨Nat.succ_ne_zero i, henabled⟩

variable {w : Work}

theorem loop_text
    (h : ops.foldlM (Work.turn (fileNewline text) (parseEnvFile text)) ⟨lineBreaks.split text, [], [], [], []⟩ = .ok w) :
    w.lines = (lineBreaks.split text).zipIdx.map (left text ops) ∧
      w.appended = (additions text ops).filterMap (addedLine text) ∧
        (∀ op ∈ additions text ops, op.deletes = false) ∧
          (w.appended = [] ↔ additions text ops = []) := by
  obtain ⟨hlines, happended, hnew⟩ := loop_spec (was_spec text) h
  have hadds : ∀ op ∈ additions text ops, op.deletes = false := fun op hop =>
    hnew op (List.mem_filter.mp hop).1 (List.mem_filter.mp hop).2
  rw [List.nil_append] at happended
  refine ⟨List.ext_getElem? fun i => ?_, happended, hadds, ?_⟩
  · rw [hlines, List.getElem?_map, List.getElem?_zipIdx]
    cases hl : (lineBreaks.split text)[i]? with
    | none => rfl
    | some l =>
      simp only [Option.map_some, Nat.zero_add, left, wasAt, hl, Option.getD_some]
      rfl
  · rw [happended]
    constructor
    · intro hnil
      cases hadd : additions text ops with
      | nil => rfl
      | cons op rest =>
        exfalso
        have hmem : op ∈ additions text ops := hadd ▸ List.mem_cons_self
        obtain ⟨value, enabled, hc⟩ :=
          edit_of_not_deletes (by rw [hadds op hmem]; exact Bool.false_ne_true)
        have hnone := List.filterMap_eq_nil_iff.mp hnil op hmem
        rw [hc] at hnone
        cases hnone
    · intro hnil
      unfold additions at hnil
      rw [hnil]
      rfl

variable {x : List Char × ℕ}

/-- The lines of the file, with their indices. -/
theorem mem_zipIdx (hx : x ∈ (lineBreaks.split text).zipIdx) :
    (lineBreaks.split text)[x.2]? = some x.1 ∧ lineBreaks.Single x.1 := by
  have hget := List.mem_zipIdx_iff_getElem?.mp hx
  exact ⟨hget, (Breaks.split_spec text).1 x.1 (List.mem_of_getElem? hget)⟩

theorem fileNewline_spec (text : List Char) : (∀ c ∈ fileNewline text, isCrLf c) ∧
    lineBreaks.IsTerm (fileNewline text) ∧ fileNewline text ≠ [] ∧ fileNewline text ≠ ['\r'] := by
  unfold fileNewline dominantNewline
  split
  · exact ⟨List.forall_mem_cons.mpr ⟨rfl, List.forall_mem_cons.mpr ⟨rfl, nofun⟩⟩,
      Or.inr (Or.inr rfl), by decide, by decide⟩
  · exact ⟨List.forall_mem_cons.mpr ⟨rfl, nofun⟩, Or.inr (Or.inl ⟨'\n', by decide, rfl⟩), by decide,
      by decide⟩

theorem ending_crLf (text : List Char) (ops : List Op) (l : List Char) :
    ∀ c ∈ ending text ops l, isCrLf c := by
  intro c hc
  unfold ending at hc
  split at hc
  · exact (fileNewline_spec text).1 c hc
  · cases hc

/-- What is asked of a line is asked under its key. -/
theorem onLine_spec (hops : ∀ op ∈ ops, op.Sane) (hx : x ∈ (lineBreaks.split text).zipIdx)
    (hne : onLine text ops x.2 ≠ []) :
    ∃ m, matchLine (wasEnabled x.1) (lineBreaks.body x.1) = some m ∧
      ∀ op ∈ onLine text ops x.2, op.Sane ∧ op.key = m.key := by
  have hentry : ∀ op ∈ onLine text ops x.2, op.Sane ∧ ∃ m,
      matchLine (wasEnabled x.1) (lineBreaks.body x.1) = some m ∧ op.key = m.key := by
    intro op hop
    obtain ⟨hmem, hfor⟩ := List.mem_filter.mp hop
    unfold Op.isFor at hfor
    split at hfor
    · next e he =>
      have hline : e.line = x.2 + 1 := of_decide_eq_true hfor
      obtain ⟨hmem', hkey⟩ := entry_spec he
      obtain ⟨i, l, hget, hof⟩ := mem_parse_iff.mp hmem'
      obtain ⟨hline', henabled, m, hm, hmkey, _⟩ := entryOf_spec hof
      obtain rfl : i = x.2 := by omega
      obtain rfl : l = x.1 := Option.some.inj (hget.symm.trans (mem_zipIdx hx).1)
      rw [henabled] at hm
      exact ⟨hops op hmem, m, hm, hkey ▸ hmkey.symm⟩
    · cases hfor
  obtain ⟨op, hop⟩ := List.exists_mem_of_ne_nil _ hne
  obtain ⟨_, m, hm, _⟩ := hentry op hop
  refine ⟨m, hm, fun op' hop' => ?_⟩
  obtain ⟨hsane, m', hm', hkey⟩ := hentry op' hop'
  cases hm.symm.trans hm'
  exact ⟨hsane, hkey⟩

theorem mem_survivors : x ∈ survivors text ops ↔
    x ∈ (lineBreaks.split text).zipIdx ∧ gone (onLine text ops x.2) = false := by
  unfold survivors
  rw [List.mem_filter, Bool.not_eq_true']

/-- When a line that is not deleted keeps its terminator. -/
theorem piece_term_iff (hops : ∀ op ∈ ops, op.Sane) (hx : x ∈ survivors text ops) :
    lineBreaks.term (piece text ops x) = lineBreaks.term x.1 ++ ending text ops x.1 ↔
      (onLine text ops x.2 ≠ [] → TailKept x.1 (onLine text ops x.2)) := by
  obtain ⟨hmem, hgone⟩ := mem_survivors.mp hx
  by_cases hne : onLine text ops x.2 = []
  · rw [piece, left, hne]
    exact ⟨fun _ h => absurd rfl h, fun _ => term_append_crLf _ (ending_crLf text ops x.1)⟩
  · obtain ⟨m, hm, hall⟩ := onLine_spec hops hmem hne
    obtain ⟨b, y, t, hparts⟩ := line_parts (mem_zipIdx hmem).2
    rw [hparts.body] at hm
    rw [piece, left, term_iff hparts hm hall hgone (ending_crLf text ops x.1)]
    exact ⟨fun h _ => h, fun h => h hne⟩

theorem head_of_clear {pre l : List Char} (hne : pre ≠ []) (hclear : lineBreaks.Clear pre) :
    (pre ++ l).head? ≠ some '\n' := by
  cases pre with
  | nil => exact absurd rfl hne
  | cons c pre =>
    intro h
    cases h
    cases hclear '\n' List.mem_cons_self

/-- A line that is not deleted is there, and begins with an LF only if it did before. -/
theorem left_head (hops : ∀ op ∈ ops, op.Sane) (hx : x ∈ survivors text ops) :
    left text ops x ≠ [] ∧ ((left text ops x).head? = some '\n' ↔ x.1.head? = some '\n') := by
  obtain ⟨hmem, hgone⟩ := mem_survivors.mp hx
  have hsingle := (mem_zipIdx hmem).2
  have hthere : left text ops x ≠ [] := fun h => by
    rw [left, rewritten_eq_nil_iff hsingle.ne, hgone] at h
    cases h
  refine ⟨hthere, ?_⟩
  by_cases hne : onLine text ops x.2 = []
  · rw [left, hne]
    rfl
  · obtain ⟨m, hm, hall⟩ := onLine_spec hops hmem hne
    obtain ⟨b, y, t, hparts⟩ := line_parts hsingle
    rw [hparts.body] at hm
    obtain ⟨hname, pre, hb, hpre, _⟩ := matchLine_prefix hm
    have hbefore : x.1.head? ≠ some '\n' := by
      rw [hparts.line, hb, List.append_assoc, List.append_assoc]
      exact head_of_clear hpre (hb ▸ hparts.clear).left
    refine ⟨fun h => ?_, fun h => absurd h hbefore⟩
    cases (lineState_first hparts hm).run hname hparts.crLf hall with
    | erased hline _ _ => exact absurd hline hthere
    | text pre' hline hwritten =>
      rw [left, hline, List.append_assoc] at h
      exact absurd h (head_of_clear hwritten.ne hwritten.clear)

/-! ## The new text -/

omit text ops in
theorem endsLine_term (l : List Char) : endsLine l = endsLine (lineBreaks.term l) := by
  have hl := Breaks.body_append_term (E := lineBreaks) l
  cases ht : lineBreaks.term l with
  | nil =>
    have hno := noCrLf_of_clear (Breaks.clear_of_term_nil ht)
    refine eq_false_of_ne_true fun h => ?_
    obtain ⟨c, hc, hcr⟩ := (Option.any_eq_true _ _).mp h
    rw [hno c (List.mem_of_getLast? hc)] at hcr
    cases hcr
  | cons c u =>
    rw [ht] at hl
    unfold endsLine
    rw [← hl, List.getLast?_append_of_ne_nil _ (List.cons_ne_nil c u)]

/-- What is added to the last line before other lines are appended. -/
def closing (newline : List Char) (lines : List (List Char)) : List Char :=
  match lines.getLast? with
  | some l => if endsLine l then [] else newline
  | none => []

omit text ops in
theorem closed_flatten (newline : List Char) (lines : List (List Char)) :
    (closed newline lines).flatten = lines.flatten ++ closing newline lines := by
  unfold closed closing
  cases lines using List.reverseRecOn with
  | nil => rfl
  | append_singleton lines l =>
    rw [List.getLast?_concat]
    dsimp only
    split
    · rw [List.append_nil]
    · rw [List.dropLast_concat, List.flatten_append, List.flatten_append, List.append_assoc]
      simp

omit text ops in
theorem ends_of_isChain {ls : List (List Char)} (h : ls.IsChain lineBreaks.Apart) :
    ls.Pairwise fun l _ => lineBreaks.term l ≠ [] := by
  induction ls with
  | nil => exact .nil
  | cons l ls ih =>
    cases ls with
    | nil => exact List.pairwise_singleton _ _
    | cons m ls =>
      obtain ⟨hm, hchain⟩ := List.isChain_cons_cons.mp h
      exact List.pairwise_cons.mpr ⟨fun _ _ => hm.ends, ih hchain⟩

/-- A line that another one follows has a terminator. -/
theorem lines_end (text : List Char) :
    (lineBreaks.split text).zipIdx.Pairwise fun x _ => lineBreaks.term x.1 ≠ [] := by
  have h := ends_of_isChain (Breaks.split_spec (E := lineBreaks) text).2
  rw [← List.zipIdx_map_fst 0 (lineBreaks.split text), List.pairwise_map] at h
  exact h

theorem ending_of_ends {l : List Char} (h : lineBreaks.term l ≠ []) : ending text ops l = [] :=
  if_neg fun hn => h hn.1

/-- Only the last line may have an ending that is added. -/
theorem pieces_flatten : ((survivors text ops).map (piece text ops)).flatten =
    ((lineBreaks.split text).zipIdx.map (left text ops)).flatten ++
      match (lineBreaks.split text).zipIdx.getLast? with
      | some x => if gone (onLine text ops x.2) then [] else ending text ops x.1
      | none => [] := by
  have hends : ∀ x ∈ (lineBreaks.split text).zipIdx.dropLast, ending text ops x.1 = [] := by
    have h := lines_end text
    cases hZ : (lineBreaks.split text).zipIdx using List.reverseRecOn with
    | nil => exact nofun
    | append_singleton Z y =>
      rw [hZ] at h
      rw [List.dropLast_concat]
      exact fun x hx => ending_of_ends
        ((List.pairwise_append.mp h).2.2 x hx y List.mem_cons_self)
  have hgone : ∀ x ∈ (lineBreaks.split text).zipIdx, gone (onLine text ops x.2) →
      left text ops x = [] := fun x hx h =>
    (rewritten_eq_nil_iff (mem_zipIdx hx).2.ne _).mpr h
  unfold survivors
  generalize (lineBreaks.split text).zipIdx = Z at hends hgone ⊢
  have hinit : ∀ Y : List (List Char × ℕ), (∀ x ∈ Y, ending text ops x.1 = []) →
      (∀ x ∈ Y, gone (onLine text ops x.2) → left text ops x = []) →
      ((Y.filter fun x => !gone (onLine text ops x.2)).map (piece text ops)).flatten =
        (Y.map (left text ops)).flatten := by
    intro Y
    induction Y with
    | nil => exact fun _ _ => rfl
    | cons x Y ih =>
      intro he hg
      obtain ⟨hx, he⟩ := List.forall_mem_cons.mp he
      obtain ⟨hgx, hg⟩ := List.forall_mem_cons.mp hg
      rw [List.filter_cons]
      cases hgone : gone (onLine text ops x.2) with
      | true =>
        rw [if_neg (by simp), List.map_cons, List.flatten_cons, hgx hgone, List.nil_append]
        exact ih he hg
      | false =>
        rw [if_pos (by simp), List.map_cons, List.flatten_cons, List.map_cons, List.flatten_cons,
          ih he hg, piece, hx, List.append_nil]
  cases Z using List.reverseRecOn with
  | nil => rfl
  | append_singleton Z x =>
    rw [List.dropLast_concat] at hends
    have hg := hgone x (List.mem_append_right _ List.mem_cons_self)
    rw [List.getLast?_concat, List.filter_append, List.map_append, List.flatten_append,
      hinit Z hends fun y hy => hgone y (List.mem_append_left _ hy), List.map_append,
      List.flatten_append, List.append_assoc]
    congr 1
    cases hgx : gone (onLine text ops x.2) with
    | true => simp [hgx, hg hgx]
    | false => simp [hgx, piece]

/-- The lines of the plan are the new text if the last line is closed as it should be. -/
theorem rendered_iff
    (hloop : ops.foldlM (Work.turn (fileNewline text) (parseEnvFile text)) ⟨lineBreaks.split text, [], [], [], []⟩ = .ok w)
    (hterm : ∀ x ∈ survivors text ops, lineBreaks.term (piece text ops x) = lineBreaks.term x.1 ++ ending text ops x.1) :
    w.rendered (fileNewline text) = ((survivors text ops).map (piece text ops) ++
        (additions text ops).filterMap (addedLine text)).flatten ↔
      (additions text ops ≠ [] → ∀ x ∈ (lineBreaks.split text).zipIdx.getLast?,
        gone (onLine text ops x.2) = false ∧
          (lineBreaks.term x.1 = [] ∨ endsLine x.1)) := by
  obtain ⟨hlines, happended, _, hnil⟩ := loop_text hloop
  obtain ⟨_, _, hne, _⟩ := fileNewline_spec text
  rw [List.flatten_append, pieces_flatten, Work.rendered, hlines, happended]
  by_cases hadd : additions text ops = []
  · have hend : ∀ l, ending text ops l = [] := fun l => if_neg fun hn => hn.2 hadd
    rw [hadd]
    refine ⟨fun _ h => absurd rfl h, fun _ => ?_⟩
    simp only [hend, ite_self, List.filterMap_nil, List.isEmpty_nil, if_true, List.flatten_nil,
      List.append_nil]
    split <;> rw [List.append_nil]
  · rw [if_neg (by rw [List.isEmpty_iff, ← happended, hnil]; exact hadd), List.flatten_append,
      closed_flatten, List.append_left_inj, List.append_right_inj]
    refine Iff.trans ?_ (forall_prop_of_true hadd).symm
    cases hlast : (lineBreaks.split text).zipIdx.getLast? with
    | none =>
      rw [closing, List.getLast?_map, hlast]
      exact ⟨fun _ => nofun, fun _ => rfl⟩
    | some x =>
      have hmem := List.mem_of_getLast? hlast
      rw [closing, List.getLast?_map, hlast]
      simp only [Option.map_some, Option.mem_some_iff, forall_eq']
      cases hgone : gone (onLine text ops x.2) with
      | true =>
        have hleft : left text ops x = [] :=
          (rewritten_eq_nil_iff (mem_zipIdx hmem).2.ne _).mpr hgone
        rw [hleft]
        simp [endsLine, hne]
      | false =>
        have hx := hterm x (mem_survivors.mpr ⟨hmem, hgone⟩)
        rw [piece, term_append_crLf _ (ending_crLf text ops x.1), List.append_left_inj] at hx
        have hsame : endsLine (left text ops x) = endsLine x.1 := by
          rw [endsLine_term, hx, ← endsLine_term]
        rw [hsame]
        by_cases hends : lineBreaks.term x.1 = []
        · have hno : endsLine x.1 = false := by
            rw [endsLine_term, hends]
            rfl
          have hend : ending text ops x.1 = fileNewline text := if_pos ⟨hends, hadd⟩
          rw [hno, hend]
          simp [hends]
        · rw [ending_of_ends hends]
          cases endsLine x.1 <;> simp [hends, hne]

/-- When a line that is appended is one line. -/
theorem appended_spec {newline key : List Char} (hcrLf : ∀ c ∈ newline, isCrLf c)
    (hterm : lineBreaks.IsTerm newline) (hne : newline ≠ []) (hkey : isKeyName key)
    (hvalue : NoCrLf (value.getD [])) :
    (lineBreaks.Single (appendedLine newline key value enabled) ↔
      lineBreaks.Clear (value.getD [])) ∧
    (appendedLine newline key value enabled).head? ≠ some '\n' ∧
    (lineBreaks.Clear (value.getD []) →
      lineBreaks.term (appendedLine newline key value enabled) = newline) := by
  have hclear : lineBreaks.Clear (marker enabled ++ key ++ ['=']) :=
    Breaks.Clear.append (Breaks.Clear.append (clear_marker enabled) (clear_name hkey))
      (List.forall_mem_cons.mpr ⟨by decide, nofun⟩)
  have hline : appendedLine newline key value enabled =
      marker enabled ++ key ++ ['='] ++ (shellLiteral (value.getD []) ++ newline) := by
    rw [appendedLine, List.append_assoc _ ['='], List.singleton_append]
  have hends : lineBreaks.term (appendedLine newline key value enabled) =
      lineBreaks.term (shellLiteral (value.getD [])) ++ newline := by
    rw [hline, Breaks.term_append hclear, term_append_crLf _ hcrLf]
  have hclearTerm : lineBreaks.Clear (value.getD []) →
      lineBreaks.term (appendedLine newline key value enabled) = newline := fun hc => by
    rw [hends, Breaks.term_clear (clear_literal hc), List.nil_append]
  refine ⟨⟨fun h => ?_, fun hc => ⟨by rw [hline]; simp, ?_⟩⟩, ?_, hclearTerm⟩
  · have hsingle := h.term
    rw [hends] at hsingle
    refine clear_of_literal (Breaks.clear_of_term_nil ?_)
    by_contra hn
    have hno : NoCrLf (lineBreaks.term (shellLiteral (value.getD []))) := fun c hc =>
      noCrLf_literal hvalue c ((List.dropWhile_sublist _).mem hc)
    generalize lineBreaks.term (shellLiteral (value.getD [])) = u at hsingle hn hno
    rcases hsingle with ht | ⟨c, _, ht⟩ | ht
    · exact hn (List.append_eq_nil_iff.mp ht).1
    · rcases List.append_eq_singleton_iff.mp ht with ⟨hu, _⟩ | ⟨_, hnewline⟩
      · exact hn hu
      · exact hne hnewline
    · cases u with
      | nil => exact hn rfl
      | cons d u =>
        obtain rfl := (List.cons.inj ht).1
        cases hno _ List.mem_cons_self
  · rw [hclearTerm hc]
    exact hterm
  · rw [hline]
    exact head_of_clear (by simp) hclear

/-- Two lines of the plan are apart if no CR comes before an LF. -/
theorem apart_iff (hops : ∀ op ∈ ops, op.Sane) {x y : List Char × ℕ}
    (hy : y ∈ survivors text ops) (hends : lineBreaks.term x.1 ≠ [])
    (hterm : lineBreaks.term (piece text ops x) = lineBreaks.term x.1 ++ ending text ops x.1) :
    lineBreaks.Apart (piece text ops x) (piece text ops y) ↔
      (lineBreaks.term x.1 = ['\r'] → y.1.head? ≠ some '\n') := by
  obtain ⟨hne, hhead⟩ := left_head hops hy
  rw [ending_of_ends hends, List.append_nil] at hterm
  have hhead' : (piece text ops y).head? = (left text ops y).head? :=
    List.head?_append_of_ne_nil _ hne
  constructor
  · rintro ⟨_, hpair⟩ hcr
    rw [hterm, hhead'] at hpair
    exact fun hlf => hpair hcr (hhead.mpr hlf)
  · intro h
    refine ⟨hterm ▸ hends, fun hcr hlf => ?_⟩
    rw [hterm] at hcr
    rw [hhead'] at hlf
    exact h hcr (hhead.mp hlf)

omit text ops in
theorem isChain_congr {β : Type*} {R S T : β → β → Prop} {l : List β} (hT : l.Pairwise T)
    (h : ∀ a ∈ l, ∀ b ∈ l, T a b → (R a b ↔ S a b)) : l.IsChain R ↔ l.IsChain S := by
  induction l with
  | nil => exact ⟨fun _ => .nil, fun _ => .nil⟩
  | cons a l ih =>
    obtain ⟨ha, hl⟩ := List.pairwise_cons.mp hT
    cases l with
    | nil => exact ⟨fun _ => .singleton _, fun _ => .singleton _⟩
    | cons b l =>
      rw [List.isChain_cons_cons, List.isChain_cons_cons,
        h a List.mem_cons_self b (List.mem_cons_of_mem _ List.mem_cons_self) (ha b List.mem_cons_self),
        ih hl fun c hc d hd => h c (List.mem_cons_of_mem _ hc) d (List.mem_cons_of_mem _ hd)]

/-- The lines that are not deleted are lines of the new text, apart from each other. -/
theorem survivors_iff (hops : ∀ op ∈ ops, op.Sane)
    (hterm : ∀ x ∈ survivors text ops,
      lineBreaks.term (piece text ops x) = lineBreaks.term x.1 ++ ending text ops x.1) :
    (∀ x ∈ survivors text ops, lineBreaks.Single (piece text ops x)) ∧
    (((survivors text ops).map (piece text ops)).IsChain lineBreaks.Apart ↔
      (survivors text ops).IsChain fun a b =>
        lineBreaks.term a.1 = ['\r'] → b.1.head? ≠ some '\n') := by
  constructor
  · intro x hx
    refine ⟨fun hn => (left_head hops hx).1 (List.append_eq_nil_iff.mp hn).1, ?_⟩
    rw [hterm x hx]
    by_cases hends : lineBreaks.term x.1 = []
    · rw [hends, List.nil_append, ending]
      split
      · exact (fileNewline_spec text).2.1
      · exact Or.inl rfl
    · rw [ending_of_ends hends, List.append_nil]
      exact (mem_zipIdx (mem_survivors.mp hx).1).2.term
  · rw [List.isChain_map]
    exact isChain_congr ((lines_end text).filter _) fun x hx y hy hends =>
      apart_iff hops hy hends (hterm x hx)

omit text ops in
theorem noCrLf_getD (hop : op.Sane) (hc : op.change = .edit value enabled) :
    NoCrLf (value.getD []) := by
  cases value with
  | none => exact fun c hc => absurd hc List.not_mem_nil
  | some value => exact hop.2 value enabled hc

/-- The appended lines are lines if no value has a line break. -/
theorem added_iff (hops : ∀ op ∈ ops, op.Sane) (hadds : ∀ op ∈ additions text ops, op.deletes = false) :
    (∀ l ∈ (additions text ops).filterMap (addedLine text), lineBreaks.Single l) ↔
      ∀ op ∈ additions text ops, ∀ value enabled, op.change = .edit (some value) enabled →
        lineBreaks.Clear value := by
  obtain ⟨hcrLf, hisTerm, hne, _⟩ := fileNewline_spec text
  constructor
  · intro h op hop value enabled hc
    have hsane := hops op (List.mem_filter.mp hop).1
    have hmem : appendedLine (fileNewline text) op.key (some value) enabled ∈
        (additions text ops).filterMap (addedLine text) :=
      List.mem_filterMap.mpr ⟨op, hop, by rw [addedLine, hc]⟩
    exact (appended_spec hcrLf hisTerm hne hsane.1 (noCrLf_getD hsane hc)).1.mp (h _ hmem)
  · intro h l hl
    obtain ⟨op, hop, hline⟩ := List.mem_filterMap.mp hl
    have hsane := hops op (List.mem_filter.mp hop).1
    obtain ⟨value, enabled, hc⟩ :=
      edit_of_not_deletes (by rw [hadds op hop]; exact Bool.false_ne_true)
    rw [addedLine, hc] at hline
    cases hline
    refine (appended_spec hcrLf hisTerm hne hsane.1 (noCrLf_getD hsane hc)).1.mpr ?_
    cases value with
    | none => exact fun c hc => absurd hc List.not_mem_nil
    | some value => exact h op hop value enabled hc

/-- An appended line begins with no LF, and ends in the newline of the file. -/
theorem mem_added (hops : ∀ op ∈ ops, op.Sane) {l : List Char}
    (hl : l ∈ (additions text ops).filterMap (addedLine text)) (hsingle : lineBreaks.Single l) :
    l.head? ≠ some '\n' ∧ lineBreaks.term l = fileNewline text := by
  obtain ⟨hcrLf, hisTerm, hne, _⟩ := fileNewline_spec text
  obtain ⟨op, hop, hline⟩ := List.mem_filterMap.mp hl
  have hsane := hops op (List.mem_filter.mp hop).1
  cases hc : op.change with
  | delete =>
    rw [addedLine, hc] at hline
    cases hline
  | edit value enabled =>
    rw [addedLine, hc] at hline
    cases hline
    obtain ⟨hiff, hhead, hterm⟩ :=
      appended_spec hcrLf hisTerm hne hsane.1 (noCrLf_getD hsane hc)
    exact ⟨hhead, hterm (hiff.mp hsingle)⟩

/-- The appended lines are apart from each other and from the lines before. -/
theorem added_apart (hops : ∀ op ∈ ops, op.Sane)
    (hterm : ∀ x ∈ survivors text ops,
      lineBreaks.term (piece text ops x) = lineBreaks.term x.1 ++ ending text ops x.1)
    (hsingle : ∀ l ∈ (additions text ops).filterMap (addedLine text), lineBreaks.Single l) :
    ((additions text ops).filterMap (addedLine text)).IsChain lineBreaks.Apart ∧
      ∀ x ∈ ((survivors text ops).map (piece text ops)).getLast?,
        ∀ y ∈ ((additions text ops).filterMap (addedLine text)).head?, lineBreaks.Apart x y := by
  obtain ⟨_, _, hne, _⟩ := fileNewline_spec text
  constructor
  · refine (List.pairwise_of_forall_mem_list fun l hl m hm => ?_).isChain
    obtain ⟨_, hends⟩ := mem_added hops hl (hsingle l hl)
    obtain ⟨hhead, _⟩ := mem_added hops hm (hsingle m hm)
    exact ⟨hends ▸ hne, fun _ => hhead⟩
  · intro x hx y hy
    obtain ⟨z, hz, rfl⟩ := List.mem_map.mp (List.mem_of_getLast? hx)
    have hy := List.mem_of_mem_head? hy
    refine ⟨?_, fun _ => (mem_added hops hy (hsingle y hy)).1⟩
    rw [hterm z hz]
    intro hnil
    obtain ⟨hends, hending⟩ := List.append_eq_nil_iff.mp hnil
    have hadd : additions text ops ≠ [] := fun h => by
      rw [h] at hy
      cases hy
    rw [ending, if_pos ⟨hends, hadd⟩] at hending
    exact hne hending

/-- The frame of the new text, and when it is there. -/
theorem frame_iff (hops : ∀ op ∈ ops, op.Sane)
    (hloop : ops.foldlM (Work.turn (fileNewline text) (parseEnvFile text)) ⟨lineBreaks.split text, [], [], [], []⟩ = .ok w) :
    Frame text ops (w.rendered (fileNewline text)) ↔ Separate text ops := by
  obtain ⟨_, _, hadds, _⟩ := loop_text hloop
  constructor
  · rintro ⟨hlines, hterm⟩
    obtain ⟨hpieces, hchain⟩ := survivors_iff hops hterm
    have hflat : w.rendered (fileNewline text) = ((survivors text ops).map (piece text ops) ++
        (additions text ops).filterMap (addedLine text)).flatten := by
      rw [← hlines, Breaks.flatten_split]
    obtain ⟨hall, hapart⟩ := Breaks.split_flatten_iff.mp (hflat ▸ hlines)
    refine ⟨fun x hx => (piece_term_iff hops hx).mp (hterm x hx),
      hchain.mp (List.isChain_append.mp hapart).1,
      (added_iff hops hadds).mp fun l hl => hall l (List.mem_append_right _ hl),
      (rendered_iff hloop hterm).mp hflat⟩
  · rintro ⟨htails, hjoins, hadded, hlast⟩
    have hterm : ∀ x ∈ survivors text ops,
        lineBreaks.term (piece text ops x) = lineBreaks.term x.1 ++ ending text ops x.1 :=
      fun x hx => (piece_term_iff hops hx).mpr (htails x hx)
    obtain ⟨hpieces, hchain⟩ := survivors_iff hops hterm
    have hsingle := (added_iff hops hadds).mpr hadded
    obtain ⟨hapart, hbetween⟩ := added_apart hops hterm hsingle
    refine ⟨?_, hterm⟩
    rw [(rendered_iff hloop hterm).mpr hlast]
    refine Breaks.split_flatten_iff.mpr ⟨fun l hl => ?_,
      List.isChain_append.mpr ⟨hchain.mpr hjoins, hapart, hbetween⟩⟩
    rcases List.mem_append.mp hl with hl | hl
    · obtain ⟨x, hx, rfl⟩ := List.mem_map.mp hl
      exact hpieces x hx
    · exact hsingle l hl

end accepted

/-! ## Accepted updates -/

theorem validateValue_spec {key value : List Char} {u : Unit} (h : validateValue key value = .ok u) :
    NoCrLf value := by
  unfold validateValue at h
  split at h
  · cases h
  · next hany =>
    intro c hc
    by_contra hn
    refine hany (List.any_eq_true.mpr ⟨c, hc, ?_⟩)
    have hcr : isCrLf c := by simpa using hn
    unfold isCrLf at hcr
    rw [hcr, Bool.true_or]

/-- What a bind has come to. -/
theorem bind_ok {ε α β : Type} {x : Except ε α} {f : α → Except ε β} {b : β}
    (h : (x >>= f) = .ok b) : ∃ a, x = .ok a ∧ f a = .ok b := by
  cases x with
  | error e => cases h
  | ok a => exact ⟨a, rfl, h⟩

theorem normalizedChange_spec {key value : List Char} {raw : Json}
    (h : normalizedChange key raw = .ok (.edit (some value) enabled)) : NoCrLf value := by
  unfold normalizedChange at h
  split at h
  · cases h
  · obtain ⟨_, hvalid, h⟩ := bind_ok h
    cases h
    exact validateValue_spec hvalid
  · split at h
    · cases h
    · cases h
    · obtain ⟨_, hvalid, h⟩ := bind_ok h
      cases h
      exact validateValue_spec hvalid
    · cases h
    · cases h
    · cases h
    · cases h
  · cases h

theorem normalizedOp_spec {raw : Json} (h : normalizedOp raw = .ok op) : op.Sane := by
  unfold normalizedOp at h
  split at h
  · split at h
    · split at h
      · cases h
      · split at h
        · split at h
          · next hname =>
            obtain ⟨line, _, h⟩ := bind_ok h
            obtain ⟨change, hchange, h⟩ := bind_ok h
            cases h
            refine ⟨hname, fun value enabled hc => ?_⟩
            obtain rfl : change = .edit (some value) enabled := hc
            exact normalizedChange_spec hchange
          · cases h
        · cases h
    · cases h
  · cases h

theorem mapM_spec {ε α β : Type} {f : α → Except ε β} {p : β → Prop}
    (hf : ∀ a b, f a = .ok b → p b) {as : List α} {bs : List β} (h : as.mapM f = .ok bs) :
    ∀ b ∈ bs, p b := by
  induction as generalizing bs with
  | nil =>
    cases h
    exact nofun
  | cons a as ih =>
    rw [List.mapM_cons] at h
    obtain ⟨b, hb, h⟩ := bind_ok h
    obtain ⟨bs', hbs, h⟩ := bind_ok h
    cases h
    exact List.forall_mem_cons.mpr ⟨hf a b hb, ih hbs⟩

theorem normalizedUpdates_spec {updates : Json} {ops : List Op}
    (h : normalizedUpdates updates = .ok ops) : ∀ op ∈ ops, op.Sane := by
  obtain ⟨raws, _, h⟩ := bind_ok h
  split at h
  · cases h
  · exact mapM_spec (fun _ _ => normalizedOp_spec) h

theorem updatedText_spec {text rendered : List Char} {ops : List Op} {w : Work}
    (h : updatedText text ops = .ok (rendered, w)) :
    ops.foldlM (Work.turn (fileNewline text) (parseEnvFile text))
      ⟨lineBreaks.split text, [], [], [], []⟩ = .ok w ∧
        rendered = w.rendered (fileNewline text) := by
  unfold updatedText at h
  split at h
  · cases h
  · dsimp only at h
    split at h
    · cases h
    · obtain ⟨w', hw, h⟩ := bind_ok h
      split at h
      · cases h
      · split at h
        · cases h
        · cases h
          exact ⟨hw, rfl⟩

/-- For every accepted update: the new text has the frame exactly when the lines stay apart. -/
theorem updates_frame {path : List Char} {disk : Disk} {updates : Json} {expected : Option ℚ}
    {written : Written} (h : applyEnvUpdates path disk updates expected = .ok written) :
    ∃ text ops, disk.text = some text ∧ normalizedUpdates updates = .ok ops ∧
      (Frame text ops written.text ↔ Separate text ops) := by
  unfold applyEnvUpdates at h
  split at h
  · cases h
  · obtain ⟨ops, hops, h⟩ := bind_ok h
    split at h
    · cases h
    · split at h
      · cases h
      · next text htext =>
        obtain ⟨⟨rendered, w⟩, hupdated, h⟩ := bind_ok h
        obtain ⟨hloop, rfl⟩ := updatedText_spec hupdated
        dsimp only at h
        split at h
        · cases h
        · cases h
          exact ⟨text, ops, htext, hops, frame_iff (normalizedUpdates_spec hops) hloop⟩

/-! ## Runs -/

instance (text : List Char) (ops : List Op) (out : List Char) : Decidable (Frame text ops out) :=
  decidable_of_iff
    (lineBreaks.split out = (survivors text ops).map (piece text ops) ++
        (additions text ops).filterMap (addedLine text) ∧
      ∀ x ∈ survivors text ops,
        lineBreaks.term (piece text ops x) = lineBreaks.term x.1 ++ ending text ops x.1)
    ⟨fun h => ⟨h.1, h.2⟩, fun h => ⟨h.1, h.2⟩⟩

/-- The file as it is read, and replaced when nobody else has touched it. -/
def plainDisk (text : List Char) : Disk := ⟨⟨0, 1, 0⟩, some text, ⟨0, 1, 0⟩, 1⟩

def applied (text : List Char) (updates : Json) : Except UpdateError Written :=
  applyEnvUpdates "/etc/model.env".toList (plainDisk text) updates none

def setOp (key value : String) : List Char × Json := (key.toList, .text value.toList)

def deleteOp (key : String) : List Char × Json := (key.toList, .null)

/-- An operation of the list form. -/
def opFor (x : List Char × Json) : Json := .object [("key".toList, .text x.1), ("value".toList, x.2)]

/-- The text of the file after an accepted update satisfies `p`. -/
def appliedIs (p : List Char → List Op → List Char → Bool) (text : List Char) (updates : Json) : Bool :=
  match applied text updates, normalizedUpdates updates with
  | .ok written, .ok ops => p text ops written.text
  | _, _ => false

theorem of_appliedIs (p : List Char → List Op → List Char → Bool) (text : List Char) (updates : Json)
    (h : appliedIs p text updates) : ∃ written ops, applied text updates = .ok written ∧
      normalizedUpdates updates = .ok ops ∧ p text ops written.text := by
  unfold appliedIs at h
  split at h
  · next written ops hw hops => exact ⟨written, ops, hw, hops, h⟩
  · cases h

/-- A file with CRLF: a value is set, a line deleted and one appended. -/
theorem updates_frame_crlf : ∃ written ops,
    applied "# a\r\nA=1 # b\r\n\r\nB=2".toList
      (.object [setOp "A" "x y", deleteOp "B", setOp "A" "z"]) = .ok written ∧
    Separate "# a\r\nA=1 # b\r\n\r\nB=2".toList ops := by
  obtain ⟨written, ops, h, hops, hframe⟩ := of_appliedIs
    (fun text ops out => decide (Frame text ops out)) "# a\r\nA=1 # b\r\n\r\nB=2".toList
    (.object [setOp "A" "x y", deleteOp "B", setOp "A" "z"]) (by decide +kernel)
  obtain ⟨text, ops', htext, hops', hiff⟩ := updates_frame h
  cases htext
  cases hops.symm.trans hops'
  exact ⟨written, ops, h, hiff.mp (of_decide_eq_true hframe)⟩

/-- A value before a vertical tab is set; a line is set after it is deleted; a line between a CR and
an LF is deleted; the last line is deleted and another one appended; one is appended after a vertical
tab; a value has a vertical tab. -/
def lossy : List (List Char × Json) :=
  [("A=1\x0bB=2\n".toList, .object [setOp "A" "2"]),
    ("A=1\nB=2\n".toList, .array [opFor (deleteOp "A"), opFor (setOp "A" "x")]),
    ("A=1\rB=2\n\nC=3\n".toList, .object [deleteOp "B"]),
    ("A=1\n".toList, .object [deleteOp "A", setOp "B" "x"]),
    ("A=1\x0b".toList, .object [setOp "B" "x"]),
    ("A=1\nB=2\n".toList, .object [setOp "A" "x\x0bC=3"])]

theorem updates_join : lossy.Forall fun x => ∃ written ops, applied x.1 x.2 = .ok written ∧
    normalizedUpdates x.2 = .ok ops ∧ ¬Frame x.1 ops written.text := by
  have hruns : (lossy.all fun x => appliedIs (fun text ops out => !decide (Frame text ops out))
      x.1 x.2) = true := by decide +kernel
  refine List.forall_iff_forall_mem.mpr fun x hx => ?_
  obtain ⟨written, ops, h, hops, hframe⟩ := of_appliedIs _ _ _ (List.all_eq_true.mp hruns x hx)
  exact ⟨written, ops, h, hops, by simpa using hframe⟩

end SparkDeck.EnvFile
