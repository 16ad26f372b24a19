import SparkDeck.EnvFile.Spot

/-!
# Two operations on one key

A call of `apply_env_updates` with two operations on a key that the file has, and two calls with one
operation each. The second operation of one call still reads the line by the pattern for what the
entry was, so that a line whose `#` the first one has put in or taken out is not read at all.

* `batch_iff`: where the first operation keeps the lines apart and leaves the key at its line, the
  texts are the same exactly when `Composes` says so.
* `batch_forgets`: a value that is switched off and on again in one call is gone.
-/

namespace SparkDeck.EnvFile

/-- The two operations compose: the first one does not switch the entry on or off, or nothing is on
the line but what the second one writes. -/
def Composes (e : Entry) (m : Match) (first : Option (List Char)) (enabled : Bool)
    (second : Option (List Char)) : Prop :=
  enabled = e.enabled ∨ m.indent = [] ∧ m.exported = [] ∧ (splitValue (m.tail first)).2 = [] ∧
    (second = none → (splitValue (m.tail first)).1 = [])

/-- The key is still at its line when its entry is switched on or off. -/
def Stays (text key : List Char) (e : Entry) (enabled : Bool) : Prop :=
  ∀ x ∈ parseEnvFile text, x.key = key → x.line ≠ e.line → x.Yields { e with enabled }

instance (text key : List Char) (e : Entry) (enabled : Bool) :
    Decidable (Stays text key e enabled) :=
  inferInstanceAs (Decidable (∀ x ∈ parseEnvFile text,
    x.key = key → x.line ≠ e.line → x.Yields { e with enabled }))

/-! ## One operation -/

variable {text key : List Char} {e : Entry}

theorem turn_edit (newline : List Char) (w : Work) (op : Op) {entries : List Entry}
    {value : Option (List Char)} {enabled : Bool} (hline : op.line = none)
    (hc : op.change = .edit value enabled) (he : effective entries op.key = some e) :
    ∃ w', w.turn newline entries op = .ok w' ∧
      w'.lines = w.lines.modify (e.line - 1) (editLine e.enabled op.key value enabled) ∧
      w'.appended = w.appended := by
  unfold Work.turn Op.entry
  rw [hline, hc]
  rw [he]
  exact ⟨_, rfl, rfl, rfl⟩

theorem loop_edit (newline : List Char) (w : Work) (op : Op) {entries : List Entry}
    {value : Option (List Char)} {enabled : Bool} (hline : op.line = none)
    (hc : op.change = .edit value enabled) (he : effective entries op.key = some e) :
    ∃ w', [op].foldlM (Work.turn newline entries) w = .ok w' ∧
      w'.lines = w.lines.modify (e.line - 1) (editLine e.enabled op.key value enabled) ∧
      w'.appended = w.appended := by
  obtain ⟨w', hturn, hw'⟩ := turn_edit newline w op hline hc he
  refine ⟨w', ?_, hw'⟩
  rw [List.foldlM_cons, hturn]
  rfl

theorem rendered_lines {w : Work} {newline : List Char} (h : w.appended = []) :
    w.rendered newline = w.lines.flatten := by
  rw [Work.rendered, h, List.isEmpty_nil, if_pos rfl]

/-- What an accepted update of one text does with another one, and another update. -/
theorem applied_spec {path text : List Char} {disk : Disk} {updates : Json} {ops : List Op}
    {expected : Option ℚ} {written : Written} (hops : normalizedUpdates updates = .ok ops)
    (h : applyEnvUpdates path disk updates expected = .ok written) (ht : disk.text = some text) :
    (∃ w, updatedText text ops = .ok (written.text, w)) ∧
      ∀ updates' ops' text', normalizedUpdates updates' = .ok ops' →
        (∀ out w, updatedText text' ops' = .ok (out, w) → ∃ written',
          applyEnvUpdates path { disk with text := some text' } updates' expected = .ok written' ∧
            written'.text = out) ∧
        ∀ written', applyEnvUpdates path { disk with text := some text' } updates' expected =
          .ok written' → ∃ w, updatedText text' ops' = .ok (written'.text, w) := by
  have hspec : ∀ {disk : Disk} {updates ops text written},
      normalizedUpdates updates = .ok ops → disk.text = some text →
      applyEnvUpdates path disk updates expected = .ok written →
      path.head? = some '/' ∧ (expected.any fun t => disk.stat.mtime ≠ t) = false ∧
        disk.current = disk.stat ∧ ∃ w, updatedText text ops = .ok (written.text, w) := by
    intro disk updates ops text written hops ht h
    unfold applyEnvUpdates at h
    split at h
    · cases h
    · next hpath =>
      rw [hops] at h
      simp only [bind, Except.bind] at h
      split at h
      · cases h
      · next hstale =>
        rw [ht] at h
        obtain ⟨⟨rendered, w⟩, hupdated, h⟩ := bind_ok h
        split at h
        · cases h
        · next hstat =>
          cases h
          exact ⟨not_not.mp hpath, by simpa using hstale, not_not.mp hstat, w, hupdated⟩
  obtain ⟨hpath, hstale, hstat, hw⟩ := hspec hops ht h
  refine ⟨hw, fun updates' ops' text' hops' => ⟨fun out w hupdated =>
    ⟨⟨out, text', disk.after, w.updated, w.deleted, w.enabledKeys⟩, ?_, rfl⟩, fun written' h' =>
      (hspec hops' rfl h').2.2.2⟩⟩
  unfold applyEnvUpdates
  rw [if_neg (not_not.mpr hpath), hops']
  simp only [bind, Except.bind]
  rw [hstale, if_neg Bool.false_ne_true, hupdated]
  dsimp only
  rw [if_neg (not_not.mpr hstat)]

/-! ## The second operation -/

variable {out : List Char}

/-- The lines that are kept apart are those that the operation leaves. -/
theorem Frame.lines_edit {op : Op} {value : Option (List Char)} {enabled : Bool} {w : Work}
    (hline : op.line = none) (hc : op.change = .edit value enabled)
    (he : effective (parseEnvFile text) op.key = some e) (h : Frame text [op] out)
    (hloop : [op].foldlM (Work.turn (fileNewline text) (parseEnvFile text)) ⟨lineBreaks.split text, [], [], [], []⟩ = .ok w) :
    lineBreaks.split out = w.lines := by
  have hadditions : additions text [op] = [] := by
    refine List.filter_eq_nil_iff.mpr fun op' hop' => ?_
    rw [List.mem_singleton.mp hop', Op.isNew, Op.entry, hline]
    rw [he]
    exact Bool.false_ne_true
  have hgone : ∀ i, gone (onLine text [op] i) = false := by
    intro i
    rw [onLine, List.filter_cons]
    split
    · rw [List.filter_nil, gone, List.getLast?_singleton, Option.any_some, Op.deletes, hc]
      rfl
    · rfl
  have hsurvivors : survivors text [op] = (lineBreaks.split text).zipIdx :=
    List.filter_eq_self.mpr fun x _ => by rw [hgone x.2, Bool.not_false]
  have hpiece : piece text [op] = left text [op] := by
    funext x
    have hending : ending text [op] x.1 = [] := if_neg fun hn => hn.2 hadditions
    rw [piece, hending, List.append_nil]
  rw [h.lines, hsurvivors, hpiece, hadditions, List.filterMap_nil, List.append_nil,
    (loop_text hloop).1]

namespace Spot

variable {value : Option (List Char)} {enabled : Bool} (s : Spot text key e)

/-- The entries of a text whose lines are those of another one after an edit. -/
theorem mem_parse_edited
    (hout : lineBreaks.split out = s.above ++ s.edited value enabled :: s.below) {x : Entry} :
    x ∈ parseEnvFile out ↔ (x ∈ parseEnvFile text ∧ x.line ≠ e.line) ∨
      entryOf e.line (lineBreaks.body (s.edited value enabled)) = some x := by
  have hget : ∀ i, i ≠ s.above.length →
      (lineBreaks.split out)[i]? = (lineBreaks.split text)[i]? := by
    intro i hi
    rw [hout, s.lines]
    rcases Nat.lt_or_gt_of_ne hi with hlt | hgt
    · rw [List.getElem?_append_left hlt, List.getElem?_append_left hlt]
    · obtain ⟨j, rfl⟩ := Nat.exists_eq_add_of_lt hgt
      rw [List.getElem?_append_right (by omega), List.getElem?_append_right (by omega),
        show s.above.length + j + 1 - s.above.length = j + 1 by omega, List.getElem?_cons_succ,
        List.getElem?_cons_succ]
  have hhere : (lineBreaks.split out)[s.above.length]? = some (s.edited value enabled) := by
    rw [hout, List.getElem?_append_right le_rfl, Nat.sub_self]
    rfl
  rw [mem_parse_iff, mem_parse_iff]
  constructor
  · rintro ⟨i, l, hl, hentry⟩
    by_cases hi : i = s.above.length
    · obtain rfl := hi
      cases hhere.symm.trans hl
      rw [← s.number] at hentry
      exact Or.inr hentry
    · refine Or.inl ⟨⟨i, l, hget i hi ▸ hl, hentry⟩, ?_⟩
      rw [(entryOf_spec hentry).1, s.number]
      omega
  · rintro (⟨⟨i, l, hl, hentry⟩, hne⟩ | hentry)
    · rw [(entryOf_spec hentry).1, s.number] at hne
      exact ⟨i, l, (hget i (by omega)).trans hl, hentry⟩
    · rw [s.number] at hentry
      exact ⟨s.above.length, _, hhere, hentry⟩

/-- The key is found at its line again. -/
theorem effective_edited (hstays : Stays text key e enabled)
    (hout : lineBreaks.split out = s.above ++ s.edited value enabled :: s.below) :
    ∃ x, effective (parseEnvFile out) key = some x ∧ x.line = e.line ∧ x.enabled = enabled := by
  have hentry := s.entry_edited value enabled
  refine ⟨_, (effective_iff (parse_sorted out)).mpr
    ⟨(s.mem_parse_edited hout).mpr (Or.inr hentry), rfl, fun x hx hkey => ?_⟩, rfl, rfl⟩
  rcases (s.mem_parse_edited hout).mp hx with ⟨hmem, hne⟩ | hx
  · exact hstays x hmem hkey hne
  · cases hentry.symm.trans hx
    unfold Entry.Yields
    split
    · exact fun _ => le_rfl
    · next hno => exact ⟨by simpa using hno, le_rfl⟩

/-- The line after the second operation of one call, and after that of another call. -/
theorem composes_iff (first second : Option (List Char)) (now : Bool)
    (hfirst : ∀ v ∈ first, NoCrLf v) :
    editLine enabled key second now (s.edited first enabled) =
        editLine e.enabled key second now (s.edited first enabled) ↔
      Composes e s.parts first enabled second := by
  have hnoCrLf := s.noCrLf_tail hfirst
  unfold edited Composes
  rw [s.edit_again enabled enabled hnoCrLf, s.edit_again e.enabled enabled hnoCrLf, if_pos rfl]
  generalize s.parts.tail first = t
  by_cases hsame : e.enabled = enabled
  · rw [if_pos hsame]
    exact ⟨fun _ => Or.inl hsame.symm, fun _ => rfl⟩
  · rw [if_neg hsame, or_iff_right (Ne.symm hsame)]
    unfold head parts
    dsimp only
    constructor
    · intro h
      have hlen := congrArg List.length h
      simp only [List.length_append, List.length_cons] at hlen
      cases second with
      | none =>
        simp only [Option.map_none, Option.getD_none, List.length_nil] at hlen
        exact ⟨List.length_eq_zero_iff.mp (by omega), List.length_eq_zero_iff.mp (by omega),
          List.length_eq_zero_iff.mp (by omega), fun _ => List.length_eq_zero_iff.mp (by omega)⟩
      | some v =>
        simp only [Option.map_some, Option.getD_some] at hlen
        exact ⟨List.length_eq_zero_iff.mp (by omega), List.length_eq_zero_iff.mp (by omega),
          List.length_eq_zero_iff.mp (by omega), nofun⟩
    · rintro ⟨hindent, hexported, hcomment, hold⟩
      rw [hindent, hexported, hcomment]
      cases second with
      | none =>
        rw [hold rfl]
        simp only [Option.map_none, Option.getD_none, List.nil_append, List.append_nil]
      | some v =>
        simp only [Option.map_some, Option.getD_some, List.nil_append, List.append_nil]

end Spot

/-- Two operations on a key in one call, and in two: the same text, exactly when they compose. The
first operation keeps the lines apart, and the key is still at its line after it. -/
theorem batch_iff {path path' : List Char} {disk disk' : Disk} {updates updates' both : Json}
    {expected expected' : Option ℚ} {value value' : Option (List Char)} {enabled enabled' : Bool}
    {first written : Written}
    (hops : normalizedUpdates updates = .ok [⟨key, none, .edit value enabled⟩])
    (hops' : normalizedUpdates updates' = .ok [⟨key, none, .edit value' enabled'⟩])
    (hboth : normalizedUpdates both =
      .ok [⟨key, none, .edit value enabled⟩, ⟨key, none, .edit value' enabled'⟩])
    (hkey : ∃ x ∈ parseEnvFile text, x.key = key)
    (ht : disk.text = some text) (ht' : disk'.text = some text)
    (h : applyEnvUpdates path disk updates expected = .ok first)
    (h' : applyEnvUpdates path' disk' both expected' = .ok written) :
    ∃ e m, effective (parseEnvFile text) key = some e ∧ matchOf text e = some m ∧
      (Separate text [⟨key, none, .edit value enabled⟩] → Stays text key e enabled →
        ((∃ second, applyEnvUpdates path' { disk' with text := some first.text } updates'
            expected' = .ok second ∧ second.text = written.text) ↔
          Composes e m value enabled value')) := by
  obtain ⟨e, he⟩ := effective_isSome hkey
  obtain ⟨hmem, hekey⟩ := effective_spec he
  subst hekey
  obtain ⟨s⟩ := spot_of_entry hmem
  refine ⟨e, s.parts, he, s.found, fun hseparate hstays => ?_⟩
  obtain ⟨⟨w, hw⟩, _⟩ := applied_spec hops h ht
  obtain ⟨⟨w', hw'⟩, hagain⟩ := applied_spec hboth h' ht'
  obtain ⟨haccept, haccepted⟩ := hagain updates' _ first.text hops'
  obtain ⟨hloop, hfirst⟩ := updatedText_spec hw
  obtain ⟨hloop', hwritten⟩ := updatedText_spec hw'
  have hsane := normalizedUpdates_spec hops
  have hvalue : ∀ v ∈ value, NoCrLf v := fun v hv =>
    (hsane _ List.mem_cons_self).2 v enabled (hv ▸ rfl)
  -- what the first call writes
  obtain ⟨w₁, hloop₁, hlines₁, _⟩ := loop_edit (fileNewline text)
    ⟨lineBreaks.split text, [], [], [], []⟩ ⟨e.key, none, .edit value enabled⟩ rfl rfl he
  cases hloop.symm.trans hloop₁
  have hframe := (frame_iff hsane hloop).mpr hseparate
  have hlines := hframe.lines_edit rfl rfl he hloop
  rw [← hfirst, hlines₁, s.lines_modify, s.edit_eq] at hlines
  -- what the second call writes
  obtain ⟨x, hx, hxline, hxenabled⟩ := s.effective_edited hstays hlines
  obtain ⟨w₂, hloop₂, hlines₂, happended₂⟩ := loop_edit (fileNewline first.text)
    ⟨lineBreaks.split first.text, [], [], [], []⟩ ⟨e.key, none, .edit value' enabled'⟩ rfl rfl hx
  have htext₂ : w₂.rendered (fileNewline first.text) = (s.above ++
      editLine enabled e.key value' enabled' (s.edited value enabled) :: s.below).flatten := by
    rw [rendered_lines happended₂, hlines₂, hlines, hxline, s.number, Nat.add_sub_cancel,
      modify_middle, hxenabled]
  -- what one call writes
  have htext : written.text = (s.above ++
      editLine e.enabled e.key value' enabled' (s.edited value enabled) :: s.below).flatten := by
    obtain ⟨w₃, hturn, hlines₃, happended₃⟩ := turn_edit (fileNewline text)
      ⟨lineBreaks.split text, [], [], [], []⟩ ⟨e.key, none, .edit value enabled⟩ rfl rfl he
    obtain ⟨w₄, hturn', hlines₄, happended₄⟩ := loop_edit (fileNewline text) w₃
      ⟨e.key, none, .edit value' enabled'⟩ rfl rfl he
    rw [List.foldlM_cons, hturn] at hloop'
    cases hloop'.symm.trans hturn'
    rw [hwritten, rendered_lines (happended₄.trans happended₃), hlines₄, hlines₃, s.lines_modify,
      s.edit_eq, s.number, Nat.add_sub_cancel, modify_middle]
  rw [← s.composes_iff value value' enabled' hvalue]
  have hiff : w₂.rendered (fileNewline first.text) = written.text ↔
      editLine enabled e.key value' enabled' (s.edited value enabled) =
        editLine e.enabled e.key value' enabled' (s.edited value enabled) := by
    rw [htext₂, htext, List.flatten_append, List.flatten_append, List.append_right_inj,
      List.flatten_cons, List.flatten_cons, List.append_left_inj]
  rw [← hiff]
  constructor
  · rintro ⟨second, hsecond, heq⟩
    obtain ⟨w₅, hw₅⟩ := haccepted second hsecond
    obtain ⟨hloop₅, htext₅⟩ := updatedText_spec hw₅
    cases hloop₂.symm.trans hloop₅
    rw [← htext₅, heq]
  · intro heq
    obtain ⟨hlen, hcount⟩ := updatedText_small hw
    obtain ⟨hlen', hcount'⟩ := updatedText_small hw'
    rw [← heq] at hlen' hcount'
    obtain ⟨second, hsecond, htext⟩ :=
      haccept _ w₂ (updatedText_eq hlen hcount hloop₂ hlen' hcount')
    exact ⟨second, hsecond, htext.trans heq⟩

/-! ## Runs -/

def switched (key : String) (enabled : Bool) : List Char × Json :=
  (key.toList, .object [("value".toList, .null), ("enabled".toList, .bool enabled)])

/-- A value is switched off, and another one is set. -/
theorem batch_switched : ∃ first written,
    applied "K=1\n".toList (.array [opFor (switched "K" false)]) = .ok first ∧
    applied "K=1\n".toList (.array [opFor (switched "K" false), opFor (setOp "K" "2")]) =
      .ok written ∧
    ∃ second, applied first.text (.array [opFor (setOp "K" "2")]) = .ok second ∧
      second.text = written.text := by
  obtain ⟨first, ops, hfirst, hops, hframe⟩ := of_appliedIs
    (fun text ops out => decide (Frame text ops out ∧
      ops = [⟨"K".toList, none, .edit none false⟩])) "K=1\n".toList
    (.array [opFor (switched "K" false)]) (by decide +kernel)
  obtain ⟨hframe, rfl⟩ := of_decide_eq_true hframe
  obtain ⟨written, ops', hwritten, hops', hboth⟩ := of_appliedIs
    (fun _ ops _ => decide (ops = [⟨"K".toList, none, .edit none false⟩,
      ⟨"K".toList, none, .edit (some "2".toList) true⟩])) "K=1\n".toList
    (.array [opFor (switched "K" false), opFor (setOp "K" "2")]) (by decide +kernel)
  obtain rfl := of_decide_eq_true hboth
  obtain ⟨_, ops'', _, hops'', hset⟩ := of_appliedIs
    (fun _ ops _ => decide (ops = [⟨"K".toList, none, .edit (some "2".toList) true⟩]))
    "# K=1\n".toList (.array [opFor (setOp "K" "2")]) (by decide +kernel)
  obtain rfl := of_decide_eq_true hset
  obtain ⟨text, _, htext, hops₀, hseparate⟩ := updates_frame hfirst
  cases htext
  cases hops.symm.trans hops₀
  obtain ⟨e, m, he, hm, hiff⟩ :=
    batch_iff hops hops'' hops' (by decide +kernel) rfl rfl hfirst hwritten
  obtain rfl : e = ⟨"K".toList, "1".toList, true, 1⟩ :=
    Option.some.inj (he.symm.trans (by decide +kernel))
  obtain rfl : m = ⟨[], [], "K".toList, "1".toList⟩ :=
    Option.some.inj (hm.symm.trans (by decide +kernel))
  have hcompose := (hiff (hseparate.mp hframe) (by decide +kernel)).mpr
    (Or.inr ⟨rfl, rfl, by decide +kernel, nofun⟩)
  exact ⟨first, written, hfirst, hwritten, hcompose⟩

/-- A value that is switched off and on again in one call is gone; in two calls it is kept. -/
theorem batch_forgets : ∃ first second both,
    applied "K=1 # one\n".toList (.array [opFor (switched "K" false)]) = .ok first ∧
    applied first.text (.array [opFor (switched "K" true)]) = .ok second ∧
    applied "K=1 # one\n".toList (.array [opFor (switched "K" false), opFor (switched "K" true)]) =
      .ok both ∧
    second.text = "K=1 # one\n".toList ∧ both.text = "K=\n".toList ∧ second.text ≠ both.text := by
  obtain ⟨first, _, hfirst, _, htext⟩ := of_appliedIs
    (fun _ _ out => decide (out = "# K=1 # one\n".toList)) "K=1 # one\n".toList
    (.array [opFor (switched "K" false)]) (by decide +kernel)
  obtain ⟨second, _, hsecond, _, htext'⟩ := of_appliedIs
    (fun _ _ out => decide (out = "K=1 # one\n".toList)) "# K=1 # one\n".toList
    (.array [opFor (switched "K" true)]) (by decide +kernel)
  obtain ⟨both, _, hboth, _, htext''⟩ := of_appliedIs
    (fun _ _ out => decide (out = "K=\n".toList)) "K=1 # one\n".toList
    (.array [opFor (switched "K" false), opFor (switched "K" true)]) (by decide +kernel)
  refine ⟨first, second, both, hfirst, ?_, hboth, of_decide_eq_true htext',
    of_decide_eq_true htext'', ?_⟩
  · rw [of_decide_eq_true htext]
    exact hsecond
  · rw [of_decide_eq_true htext', of_decide_eq_true htext'']
    decide

end SparkDeck.EnvFile
