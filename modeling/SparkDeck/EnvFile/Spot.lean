import SparkDeck.EnvFile.ReadBack

/-!
# The spot of a key

`effective_iff` says which entry is effective. `Spot` says where it is and what any edit makes of
its line, `Spot.edit_again` what another edit makes of that, and `Spot.entry_edited` what is read.
-/

namespace SparkDeck.EnvFile

/-! ## Which entry is effective -/

/-- With `e` in the file the entry `x` of its key is not the effective one. -/
def Entry.Yields (x e : Entry) : Prop :=
  if e.enabled then x.enabled → x.line ≤ e.line
  else x.enabled = false ∧ x.line ≤ e.line

instance (x e : Entry) : Decidable (x.Yields e) :=
  inferInstanceAs (Decidable (if e.enabled then x.enabled → x.line ≤ e.line
    else x.enabled = false ∧ x.line ≤ e.line))

variable {es : List Entry}

theorem effective_yields {key : List Char} {e : Entry}
    (hsorted : es.Pairwise fun a b => a.line < b.line) (h : effective es key = some e) :
    ∀ x ∈ es, x.key = key → x.Yields e := by
  induction es using List.reverseRecOn generalizing e with
  | nil => exact nofun
  | append_singleton es y ih =>
    obtain ⟨hes, _, hbefore⟩ := List.pairwise_append.mp hsorted
    have hlt : ∀ x ∈ es, x.line ≤ y.line := fun x hx => (hbefore x hx y List.mem_cons_self).le
    rw [effective_concat] at h
    intro x hx hk
    split at h
    case isFalse hy =>
      rcases List.mem_append.mp hx with hx | hx
      · exact ih hes h x hx hk
      · exact absurd (List.mem_singleton.mp hx ▸ hk) hy
    case isTrue hy =>
      cases hes' : effective es key with
      | none =>
        rw [hes'] at h
        cases h
        rcases Table.mem_snoc hx with hx | rfl
        · obtain ⟨z, hz⟩ := effective_isSome ⟨x, hx, hk⟩
          rw [hes'] at hz
          cases hz
        · unfold Entry.Yields
          split
          · exact fun _ => le_rfl
          · next hno => exact ⟨by simpa using hno, le_rfl⟩
      | some z =>
        rw [hes'] at h
        dsimp only at h
        have hz := ih hes hes'
        split at h
        case isTrue hover =>
          -- the new entry is the effective one
          cases h
          rcases Table.mem_snoc hx with hx | rfl
          · unfold Entry.Yields
            split
            · exact fun _ => hlt x hx
            · next hno =>
              have hzoff : ¬z.enabled := by simpa [hno] using hover
              have hxz := hz x hx hk
              rw [Entry.Yields, if_neg hzoff] at hxz
              exact ⟨hxz.1, hlt x hx⟩
          · unfold Entry.Yields
            split
            · exact fun _ => le_rfl
            · next hno => exact ⟨by simpa using hno, le_rfl⟩
        case isFalse hover =>
          obtain rfl := Option.some.inj h
          rcases Table.mem_snoc hx with hx | rfl
          · exact hz x hx hk
          · have hon : x.enabled = false ∧ z.enabled = true := by simpa using hover
            rw [Entry.Yields, if_pos hon.2, hon.1]
            exact nofun

theorem sorted_line_inj (hsorted : es.Pairwise fun a b => a.line < b.line) {x y : Entry}
    (hx : x ∈ es) (hy : y ∈ es) (h : x.line = y.line) : x = y := by
  have hnodup : (es.map Entry.line).Nodup := List.pairwise_map.mpr (hsorted.imp Nat.ne_of_lt)
  exact List.inj_on_of_nodup_map hnodup hx hy h

/-- The effective entry of a key is the one that the others yield to. -/
theorem effective_iff {key : List Char} {e : Entry}
    (hsorted : es.Pairwise fun a b => a.line < b.line) :
    effective es key = some e ↔
      e ∈ es ∧ e.key = key ∧ ∀ x ∈ es, x.key = key → x.Yields e := by
  constructor
  · intro h
    obtain ⟨hmem, hkey⟩ := effective_spec h
    exact ⟨hmem, hkey, effective_yields hsorted h⟩
  · rintro ⟨hmem, hkey, hyields⟩
    obtain ⟨z, hz⟩ := effective_isSome ⟨e, hmem, hkey⟩
    obtain ⟨hzmem, hzkey⟩ := effective_spec hz
    have hez := effective_yields hsorted hz e hmem hkey
    have hze := hyields z hzmem hzkey
    have hline : z.line = e.line := by
      unfold Entry.Yields at hez hze
      cases hzon : z.enabled with
      | true =>
        rw [hzon] at hez hze
        cases heon : e.enabled with
        | true =>
          rw [heon] at hez hze
          exact le_antisymm (hze rfl) (hez rfl)
        | false =>
          rw [heon] at hze
          cases hze.1
      | false =>
        rw [hzon] at hez hze
        cases heon : e.enabled with
        | true =>
          rw [heon] at hez
          cases hez.1
        | false =>
          rw [heon] at hze
          exact le_antisymm hze.2 hez.2
    rw [hz, sorted_line_inj hsorted hzmem hmem hline]

/-! ## The line of a key -/

/-- What the pattern of an entry says of its line. -/
def matchOf (text : List Char) (e : Entry) : Option Match :=
  (lineBreaks.split text)[e.line - 1]?.bind fun l => matchLine e.enabled (l.rdropWhile isCrLf)

/-- What an edit leaves after the `=`, but for the CR and LF. -/
def Match.tail (m : Match) (value : Option (List Char)) : List Char :=
  (value.map shellLiteral).getD (splitValue m.rest).1 ++ (splitValue m.rest).2

/-- Where the entry `e` of a key is, and what an edit makes of its line. -/
structure Spot (text key : List Char) (e : Entry) where
  above : List (List Char)
  line : List Char
  below : List (List Char)
  indent : List Char
  exported : List Char
  /-- What follows the `=`, but for the CR and LF. -/
  rest : List Char
  newline : List Char
  lines : lineBreaks.split text = above ++ line :: below
  number : e.line = above.length + 1
  found : matchOf text e = some ⟨indent, exported, key, rest⟩
  spaces : ∀ c ∈ indent, isSpace c
  clear : lineBreaks.Clear indent
  isExport : IsExport exported
  name : isKeyName key
  noCrLf : NoCrLf rest
  crLf : ∀ c ∈ newline, isCrLf c
  /-- What is kept of the line ends as it does, or nowhere. -/
  ends : ∀ a b, rest = a ++ b → ∃ c y, b ++ newline = c ++ y ∧ lineBreaks.Clear c ∧
    (y = [] ∨ y = lineBreaks.term line)
  edit : ∀ value enabled, editLine e.enabled key value enabled line =
    indent ++ marker enabled ++ exported ++ key ++ '=' ::
      ((value.map shellLiteral).getD (splitValue rest).1 ++ (splitValue rest).2 ++ newline)

theorem spot_of_entry {text : List Char} {e : Entry} (he : e ∈ parseEnvFile text) :
    Nonempty (Spot text e.key e) := by
  obtain ⟨i, l, hget, hentry⟩ := mem_parse_iff.mp he
  obtain ⟨hline, _, m, hm, hmkey, _⟩ := entryOf_spec hentry
  obtain ⟨b, x, t, hparts⟩ :=
    line_parts ((Breaks.split_spec (E := lineBreaks) text).1 l (List.mem_of_getElem? hget))
  rw [hparts.body] at hm
  obtain ⟨hdrop, htake⟩ := hparts.strip
  have hmatch := matchLine_append hm x
  obtain ⟨hname, pre, hb, _, u, hpre⟩ := matchLine_prefix hm
  obtain ⟨hindent, _, _, _, ⟨hexport, _⟩, _⟩ := matchLine_iff.mp hm
  have hclear := hparts.clear
  rw [hb] at hclear
  obtain ⟨hlt, hl⟩ := List.getElem?_eq_some_iff.mp hget
  refine ⟨⟨(lineBreaks.split text).take i, l, (lineBreaks.split text).drop (i + 1), m.indent,
    m.exported, m.rest ++ x, t, ?_, ?_, ?_, hindent, (hpre ▸ hclear.left).left, hexport,
    hmkey ▸ hname, (noCrLf_of_clear hclear.right).append hparts.other, hparts.crLf,
    fun a b hab => ?_, fun value enabled => ?_⟩⟩
  · conv_lhs => rw [← List.take_append_drop i (lineBreaks.split text),
      List.drop_eq_getElem_cons hlt, hl]
  · rw [List.length_take_of_le hlt.le, hline]
  · rw [matchOf, hline, Nat.add_sub_cancel, hget, Option.bind_some, hdrop, hmatch, hmkey]
  · rw [hparts.term]
    rcases hparts.single with rfl | rfl
    · rw [List.append_nil] at hab
      exact ⟨b, t, rfl, (hab ▸ hclear.right).right, Or.inr rfl⟩
    · rw [List.append_nil]
      cases b using List.reverseRecOn with
      | nil => exact ⟨[], [], rfl, nofun, Or.inl rfl⟩
      | append_singleton b d =>
        -- the break is the last character, or there is none
        have hterm := hparts.isTerm
        rw [List.append_nil] at hterm
        rcases hterm with rfl | ⟨d', _, rfl⟩ | rfl
        · rw [List.append_nil] at hab
          refine ⟨b ++ [d], [], by rw [List.append_nil], (hab ▸ hclear.right).right, Or.inl rfl⟩
        · rw [← List.append_assoc] at hab
          obtain ⟨hab, hd⟩ := List.append_inj' hab rfl
          exact ⟨b, [d], rfl, (hab ▸ hclear.right).right, Or.inr (by rw [List.append_nil, hd])⟩
        · cases hparts.other '\r' List.mem_cons_self
  · unfold editLine
    rw [hdrop, hmatch, htake]

namespace Spot

variable {text key : List Char} {e : Entry} (s : Spot text key e)

/-- What is before the `=` of the line once it is written. -/
def head (enabled : Bool) : List Char := s.indent ++ marker enabled ++ s.exported ++ key

def parts : Match := ⟨s.indent, s.exported, key, s.rest⟩

theorem noCrLf_tail {value : Option (List Char)} (h : ∀ v ∈ value, NoCrLf v) :
    NoCrLf (s.parts.tail value) := by
  obtain ⟨hold, hcomment⟩ := noCrLf_split s.noCrLf
  refine NoCrLf.append ?_ hcomment
  cases value with
  | none => exact hold
  | some v => exact noCrLf_literal (h v rfl)

/-- The line after an edit. -/
def edited (value : Option (List Char)) (enabled : Bool) : List Char :=
  s.head enabled ++ '=' :: (s.parts.tail value ++ s.newline)

theorem edit_eq (value : Option (List Char)) (enabled : Bool) :
    editLine e.enabled key value enabled s.line = s.edited value enabled :=
  s.edit value enabled

theorem clear_head (enabled : Bool) : lineBreaks.Clear (s.head enabled) :=
  ((s.clear.append (clear_marker enabled)).append (clear_export s.isExport)).append
    (clear_name s.name)

theorem matchLine_head (enabled : Bool) (t : List Char) :
    matchLine enabled (s.head enabled ++ '=' :: t) = some ⟨s.indent, s.exported, key, t⟩ :=
  matchLine_marker s.spaces s.isExport s.name t

/-- An edit of the line once it is written: with the pattern for what it is, or the other one. -/
theorem edit_again (was enabled : Bool) {t : List Char} (ht : NoCrLf t)
    (value : Option (List Char)) (now : Bool) :
    editLine was key value now (s.head enabled ++ '=' :: (t ++ s.newline)) =
      if was = enabled then
        s.head now ++ '=' :: ((value.map shellLiteral).getD (splitValue t).1 ++ (splitValue t).2 ++
          s.newline)
      else marker now ++ key ++ '=' :: ((value.map shellLiteral).getD [] ++ s.newline) := by
  have hnoCrLf : NoCrLf (s.head enabled ++ '=' :: t) := by
    refine (noCrLf_of_clear (s.clear_head enabled)).append fun c hc => ?_
    rcases List.mem_cons.mp hc with rfl | hc
    · decide
    · exact ht c hc
  have hline : s.head enabled ++ '=' :: (t ++ s.newline) =
      (s.head enabled ++ '=' :: t) ++ s.newline := by
    rw [List.append_assoc, List.cons_append]
  obtain ⟨hdrop, htake⟩ := strip_append hnoCrLf s.crLf
  unfold editLine
  rw [hline, hdrop, htake]
  by_cases hsame : was = enabled
  · rw [if_pos hsame, hsame, s.matchLine_head]
    rfl
  · obtain rfl : was = !enabled := by
      cases was <;> cases enabled <;> simp_all
    rw [if_neg hsame, matchLine_exclusive (s.matchLine_head enabled t)]

/-- What is read of the line after an edit. -/
theorem entry_edited (value : Option (List Char)) (enabled : Bool) :
    entryOf e.line (lineBreaks.body (s.edited value enabled)) =
      some ⟨key, (splitValue (lineBreaks.body (s.parts.tail value ++ s.newline))).1, enabled,
        e.line⟩ := by
  have hbody : lineBreaks.body (s.edited value enabled) =
      s.head enabled ++ '=' :: lineBreaks.body (s.parts.tail value ++ s.newline) := by
    have hclear : lineBreaks.Clear (s.head enabled ++ ['=']) :=
      (s.clear_head enabled).append (List.forall_mem_cons.mpr ⟨by decide, nofun⟩)
    rw [edited, List.append_cons, Breaks.body_append hclear, ← List.append_cons]
  have hmatch := s.matchLine_head enabled (lineBreaks.body (s.parts.tail value ++ s.newline))
  rw [hbody]
  unfold entryOf
  cases enabled with
  | true =>
    rw [matchLine, if_pos rfl] at hmatch
    rw [hmatch]
  | false =>
    have hother := matchLine_exclusive hmatch
    rw [Bool.not_false, matchLine, if_pos rfl] at hother
    rw [matchLine, if_neg Bool.false_ne_true] at hmatch
    rw [hother, hmatch]

theorem lines_modify (f : List Char → List Char) :
    (lineBreaks.split text).modify (e.line - 1) f = s.above ++ f s.line :: s.below := by
  rw [s.lines, s.number, Nat.add_sub_cancel, modify_middle]

end Spot

end SparkDeck.EnvFile
