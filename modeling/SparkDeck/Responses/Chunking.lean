import Mathlib.Data.List.Chain
import SparkDeck.Lib.Utf8
import SparkDeck.Responses.Stream

/-!
# Payloads and the cuts of the upstream

What `_sse_payloads` yields for the pieces of a text, where the bytes are cut anywhere.

* `ssePayloads_bytes`: whatever the chunks, the decoder makes the same of them as of pieces of the
  text.
* The buffer is normalised again with every piece, so a `\r\r\n` loses one `\r` or both. Without it
  the pieces do not matter (`newlines_again`): `payloadsOf_eq` gives the payloads of the whole text.
-/

namespace SparkDeck.Responses

/-! ## The decoder -/

/-- `codecs.getincrementaldecoder("utf-8")()`; `describe` is the text of its error. -/
abbrev utf8 (describe : List UInt8 → DecodeError) : Decoder where
  σ := List UInt8
  start := []
  decode kept b :=
    match Utf8.decode (kept ++ b) with
    | .ok (text, kept) => .ok (kept, text)
    | .error bad => .error (describe bad)
  final kept := if kept = [] then .ok [] else .error (describe kept)

/-- `_sse_payloads` of an upstream of bytes. -/
def payloadsOf (describe : List UInt8 → DecodeError) (chunks : List (List UInt8)) :
    List (List Char) × Option DecodeError :=
  ssePayloads (utf8 describe) [] [] (chunks.map .bytes)

variable {describe : List UInt8 → DecodeError}

/-- What a frame yields. -/
def framePayload (frame : List Char) : List (List Char) := payloadOf (linesAt (· = '\n') frame)

/-- What a buffer yields, and what is left of it. -/
def completed (buffer : List Char) : List (List Char) :=
  (frames (newlines buffer)).1.flatMap framePayload

def remaining (buffer : List Char) : List Char := (frames (newlines buffer)).2

/-- What the last frame yields, when nothing ended it. -/
def lastPayload (buffer : List Char) : List (List Char) :=
  if buffer.all isSpace then [] else payloadOf (linesAt isBoundary buffer)

section steps

variable {dec : Decoder} {s s' : dec.σ} {buffer t : List Char}

theorem ssePayloads_bytes_cons {b : List UInt8} (h : dec.decode s b = .ok (s', t))
    (pieces : List Piece) :
    ssePayloads dec s buffer (.bytes b :: pieces)
      = (completed (buffer ++ t) ++ (ssePayloads dec s' (remaining (buffer ++ t)) pieces).1,
        (ssePayloads dec s' (remaining (buffer ++ t)) pieces).2) := by
  simp only [ssePayloads, h]
  rfl

theorem ssePayloads_text_cons (pieces : List Piece) :
    ssePayloads dec s buffer (.text t :: pieces)
      = (completed (buffer ++ t) ++ (ssePayloads dec s (remaining (buffer ++ t)) pieces).1,
        (ssePayloads dec s (remaining (buffer ++ t)) pieces).2) := by
  rfl

end steps

theorem ssePayloads_nil (buffer : List Char) :
    ssePayloads (utf8 describe) [] buffer [] = (lastPayload buffer, none) := by
  simp only [ssePayloads, if_pos, List.append_nil, lastPayload]
  split <;> rfl

/-- Whatever the chunks, the decoder makes a text of each, and together they are the text. -/
theorem ssePayloads_bytes {kept : List UInt8} {rest : List Char} (hcut : Utf8.Cut kept rest)
    (buffer : List Char) {chunks : List (List UInt8)}
    (h : kept ++ chunks.flatten = Utf8.encode rest) :
    ∃ pieces : List (List Char), pieces.flatten = rest ∧
      ssePayloads (utf8 describe) kept buffer (chunks.map .bytes)
        = ssePayloads (utf8 describe) [] buffer (pieces.map .text) := by
  induction chunks generalizing kept rest buffer with
  | nil =>
    rw [List.flatten_nil, List.append_nil] at h
    obtain ⟨rfl, rfl⟩ := hcut.eq_nil h
    exact ⟨[], rfl, rfl⟩
  | cons chunk chunks ih =>
    rw [List.flatten_cons, ← List.append_assoc] at h
    obtain ⟨done, rest', kept', rfl, hbytes, hkept, hcut'⟩ := Utf8.exists_cut h
    have hdecode : (utf8 describe).decode kept chunk = .ok (kept', done) := by
      have hdone := Utf8.decode_encode hcut' done
      rw [← hbytes] at hdone
      simp only [utf8, hdone]
    obtain ⟨pieces, hpieces, hsame⟩ := ih hcut' (remaining (buffer ++ done)) hkept
    refine ⟨done :: pieces, by rw [List.flatten_cons, hpieces], ?_⟩
    rw [List.map_cons, List.map_cons, ssePayloads_bytes_cons hdecode, ssePayloads_text_cons, hsame]

/-! ## The pieces of a text -/

/-- No `\r\n` in the text. -/
def Plain (s : List Char) : Prop := s.IsChain fun a b => ¬(a = '\r' ∧ b = '\n')

/-- A `\r\n` with another `\r` before it. -/
def DoubleCr (s : List Char) : Prop := ['\r', '\r', '\n'] <:+: s

instance (s : List Char) : Decidable (DoubleCr s) :=
  inferInstanceAs (Decidable (['\r', '\r', '\n'] <:+: s))

theorem newlines_cons {c : Char} {s : List Char} (h : ¬(c = '\r' ∧ s.head? = some '\n')) :
    newlines (c :: s) = c :: newlines s :=
  newlines.eq_2 c s fun rest hc hs => h ⟨hc, by rw [hs]; rfl⟩

/-- The first character is another only where a `\r\n` begins. -/
theorem head_newlines {s : List Char} (h : ¬ ['\r', '\n'] <+: s) :
    (newlines s).head? = s.head? := by
  cases s with
  | nil => rfl
  | cons c s =>
    rw [newlines_cons]
    · rfl
    · rintro ⟨rfl, hs⟩
      obtain ⟨s, rfl⟩ := List.head?_eq_some_iff.mp hs
      exact h ⟨s, rfl⟩

theorem newlines_append {s w : List Char} (h : ¬(s.getLast? = some '\r' ∧ w.head? = some '\n')) :
    newlines (s ++ w) = newlines s ++ newlines w := by
  induction s using newlines.induct with
  | case1 s ih =>
    have hs : ¬(s.getLast? = some '\r' ∧ w.head? = some '\n') := by
      rintro ⟨hs, hw⟩
      refine h ⟨?_, hw⟩
      rw [List.getLast?_cons, List.getLast?_cons, hs]
      rfl
    simp only [List.cons_append, newlines, ih hs]
  | case2 c s hno ih =>
    cases s with
    | nil =>
      have hc : ¬(c = '\r' ∧ w.head? = some '\n') := fun ⟨hc, hw⟩ => h ⟨by rw [hc]; rfl, hw⟩
      have hone : newlines [c] = [c] := newlines_cons fun hn => by cases hn.2
      rw [List.cons_append, List.nil_append, newlines_cons hc, hone]
      rfl
    | cons d s =>
      have hd : ¬(c = '\r' ∧ some d = some '\n') :=
        fun ⟨hc, hd⟩ => hno s hc (by rw [Option.some.inj hd])
      have hs : ¬((d :: s).getLast? = some '\r' ∧ w.head? = some '\n') := by
        rwa [List.getLast?_cons_cons] at h
      have hleft : newlines (c :: d :: s) = c :: newlines (d :: s) := newlines_cons hd
      have hboth : newlines (c :: (d :: s ++ w)) = c :: newlines (d :: s ++ w) := newlines_cons hd
      rw [List.cons_append, hboth, ih hs, hleft]
      rfl
  | case3 => rfl

theorem newlines_plain {s : List Char} (h : Plain s) : newlines s = s := by
  induction s with
  | nil => rfl
  | cons c s ih =>
    have hhead : ¬(c = '\r' ∧ s.head? = some '\n') := by
      rintro ⟨rfl, hs⟩
      obtain ⟨s, rfl⟩ := List.head?_eq_some_iff.mp hs
      exact (List.isChain_cons_cons.mp h).1 ⟨rfl, rfl⟩
    rw [newlines_cons hhead, ih h.tail]

theorem DoubleCr.cons {c : Char} {s : List Char} (h : DoubleCr s) : DoubleCr (c :: s) :=
  h.trans (List.suffix_cons c s).isInfix

/-- Once is enough where no `\r` stands before a `\r\n`. -/
theorem newlines_again {s w : List Char} (h : ¬ DoubleCr (s ++ w)) :
    newlines (newlines s ++ w) = newlines (s ++ w) := by
  induction s using newlines.induct with
  | case1 s ih =>
    have hs : ¬ DoubleCr (s ++ w) := fun hs => h hs.cons.cons
    have hhead (u : List Char) : newlines ('\n' :: u) = '\n' :: newlines u :=
      newlines_cons fun hn => by cases hn.1
    simp only [List.cons_append, newlines]
    rw [hhead, ih hs]
  | case2 c s hno ih =>
    have hc : ¬(c = '\r' ∧ s.head? = some '\n') := by
      rintro ⟨rfl, hs⟩
      obtain ⟨s, rfl⟩ := List.head?_eq_some_iff.mp hs
      exact hno s rfl rfl
    have hs : ¬ DoubleCr (s ++ w) := fun hs => h hs.cons
    rw [newlines_cons hc, List.cons_append, List.cons_append]
    by_cases hcr : c = '\r'
    · subst hcr
      cases s with
      | nil => rfl
      | cons d s =>
        have hstart : ¬ ['\r', '\n'] <+: d :: s := by
          rintro ⟨u, hu⟩
          refine h ⟨[], u ++ w, ?_⟩
          rw [← hu]
          rfl
        have hhead := head_newlines hstart
        have hleft : ¬(('\r' : Char) = '\r' ∧ (newlines (d :: s) ++ w).head? = some '\n') := by
          rw [List.head?_append, hhead]
          exact hc
        have hright : ¬(('\r' : Char) = '\r' ∧ (d :: s ++ w).head? = some '\n') := hc
        rw [newlines_cons hleft, newlines_cons hright, ih hs]
    · rw [newlines_cons fun hn => hcr hn.1, newlines_cons fun hn => hcr hn.1, ih hs]
  | case3 => rfl

theorem plain_newlines {s : List Char} (h : ¬ DoubleCr s) : Plain (newlines s) := by
  induction s using newlines.induct with
  | case1 s ih =>
    refine List.IsChain.cons (ih fun hs => h hs.cons.cons) fun d _ hn => ?_
    cases hn.1
  | case2 c s hno ih =>
    have hc : ¬(c = '\r' ∧ s.head? = some '\n') := by
      rintro ⟨rfl, hs⟩
      obtain ⟨s, rfl⟩ := List.head?_eq_some_iff.mp hs
      exact hno s rfl rfl
    rw [newlines_cons hc]
    refine List.IsChain.cons (ih fun hs => h hs.cons) fun d hd hn => ?_
    obtain ⟨rfl, rfl⟩ := hn
    have hstart : ¬ ['\r', '\n'] <+: s := by
      rintro ⟨u, rfl⟩
      exact h ⟨[], u, rfl⟩
    rw [head_newlines hstart] at hd
    exact hc ⟨rfl, hd⟩
  | case3 => exact List.isChain_nil

/-! ## The frames of a text -/

/-- `done` is `cut` and the blank lines that end them; what comes after it does not matter. -/
structure Whole (done : List Char) (cut : List (List Char)) : Prop where
  splits : ∀ s, frames (done ++ s) = (cut ++ (frames s).1, (frames s).2)
  ends : done = [] ∨ done.getLast? = some '\n'
  none : cut = [] → done = []

theorem frames_cons {c : Char} {s : List Char} (h : ¬(c = '\n' ∧ s.head? = some '\n')) :
    frames (c :: s) = match frames s with
      | (f :: fs, last) => ((c :: f) :: fs, last)
      | ([], last) => ([], c :: last) :=
  frames.eq_2 c s fun rest hc hs => h ⟨hc, by rw [hs]; rfl⟩

theorem frames_spec (s : List Char) :
    ∃ done, s = done ++ (frames s).2 ∧ Whole done (frames s).1 := by
  induction s using frames.induct with
  | case1 s ih =>
    obtain ⟨done, hs, hframes, hends, hnone⟩ := ih
    refine ⟨'\n' :: '\n' :: done, ?_, fun w => ?_, Or.inr ?_, fun hn => by simp [frames] at hn⟩
    · simp only [frames, List.cons_append]
      rw [← hs]
    · simp only [frames, List.cons_append]
      rw [hframes]
    · obtain rfl | hends := hends
      · rfl
      · rw [List.getLast?_cons, List.getLast?_cons, hends]
        rfl
  | case2 c s hno f fs last hf ih =>
    have hc : ¬(c = '\n' ∧ s.head? = some '\n') := by
      rintro ⟨rfl, hs⟩
      obtain ⟨s, rfl⟩ := List.head?_eq_some_iff.mp hs
      exact hno s rfl rfl
    obtain ⟨done, hs, hframes, hends, hnone⟩ := ih
    rw [hf] at hs hframes hnone
    have hne : done ≠ [] := by
      rintro rfl
      have hself := hframes []
      simp [frames] at hself
    have hhead (w : List Char) : (done ++ w).head? = s.head? := by
      rw [hs, List.head?_append_of_ne_nil _ hne, List.head?_append_of_ne_nil _ hne]
    have hsame := frames_cons hc
    rw [hf] at hsame
    refine ⟨c :: done, ?_, fun w => ?_, Or.inr ?_, fun hn => ?_⟩
    · rw [hsame, List.cons_append, ← hs]
    · have hcw : ¬(c = '\n' ∧ (done ++ w).head? = some '\n') := by
        rw [hhead]
        exact hc
      rw [List.cons_append, frames_cons hcw, hframes, hsame]
      rfl
    · rw [List.getLast?_cons, hends.resolve_left hne]
      rfl
    · rw [hsame] at hn
      cases hn
  | case3 c s hno last hf ih =>
    have hc : ¬(c = '\n' ∧ s.head? = some '\n') := by
      rintro ⟨rfl, hs⟩
      obtain ⟨s, rfl⟩ := List.head?_eq_some_iff.mp hs
      exact hno s rfl rfl
    obtain ⟨done, hs, hframes, hends, hnone⟩ := ih
    rw [hf] at hs hnone
    obtain rfl := hnone rfl
    have hsame := frames_cons hc
    rw [hf] at hsame
    refine ⟨[], ?_, fun w => ?_, Or.inl rfl, fun _ => rfl⟩
    · rw [hsame, hs]
      rfl
    · rw [hsame]
      rfl
  | case4 => exact ⟨[], rfl, fun w => rfl, Or.inl rfl, fun _ => rfl⟩

theorem Whole.append {done done' : List Char} {cut cut' : List (List Char)}
    (h : Whole done cut) (h' : Whole done' cut') : Whole (done ++ done') (cut ++ cut') := by
  refine ⟨fun s => ?_, ?_, fun hn => ?_⟩
  · rw [List.append_assoc, h.splits, h'.splits, List.append_assoc]
  · obtain rfl | hends := h'.ends
    · rw [List.append_nil]
      exact h.ends
    · refine Or.inr ?_
      rw [List.getLast?_append, hends]
      rfl
  · obtain ⟨hcut, hcut'⟩ := List.append_eq_nil_iff.mp hn
    rw [h.none hcut, h'.none hcut']
    rfl

variable {cut : List (List Char)}

/-- What is left of a buffer is left as it is. -/
theorem Whole.rest {done s : List Char} (h : Whole done cut) (hs : frames (done ++ s) = (cut, s)) :
    frames s = ([], s) := by
  rw [h.splits] at hs
  obtain ⟨hcut, hrest⟩ := Prod.mk.inj hs
  refine Prod.ext ?_ hrest
  exact List.append_right_eq_self.mp hcut

/-- After a part of the text, the frames of that part have been yielded and `rest` is left. -/
structure Read (seen rest : List Char) (cut : List (List Char)) : Prop where
  read : ∃ done, newlines seen = done ++ rest ∧ Whole done cut
  open_ : frames rest = ([], rest)

variable {seen rest : List Char}

theorem Read.eq (h : Read seen rest cut) : frames (newlines seen) = (cut, rest) := by
  obtain ⟨⟨done, hseen, hwhole⟩, hopen⟩ := h
  rw [hseen, hwhole.splits, hopen, List.append_nil]

theorem Read.nil : Read [] [] [] := ⟨⟨[], rfl, fun _ => rfl, Or.inl rfl, fun _ => rfl⟩, rfl⟩

theorem Read.next (h : Read seen rest cut) (w : List Char) (hcr : ¬ DoubleCr (seen ++ w)) :
    Read (seen ++ w) (remaining (rest ++ w)) (cut ++ (frames
      (newlines (rest ++ w))).1) := by
  obtain ⟨⟨done, hseen, hwhole⟩, hopen⟩ := h
  obtain ⟨done', hdone', hwhole'⟩ := frames_spec (newlines (rest ++ w))
  have hplain : Plain done := by
    have hall : Plain (newlines seen) :=
      plain_newlines fun hs => hcr (hs.trans (List.prefix_append seen w).isInfix)
    rw [hseen] at hall
    exact (List.isChain_append.mp hall).1
  have hlast : ¬(done.getLast? = some '\r' ∧ (rest ++ w).head? = some '\n') := by
    rintro ⟨hcr, -⟩
    obtain rfl | hends := hwhole.ends
    · cases hcr
    · rw [hends] at hcr
      cases Option.some.inj hcr
  have hall : newlines (seen ++ w) = done ++ newlines (rest ++ w) := by
    rw [← newlines_again hcr, hseen, List.append_assoc, newlines_append hlast,
      newlines_plain hplain]
  refine ⟨⟨done ++ done', ?_, hwhole.append hwhole'⟩, ?_⟩
  · rw [hall, List.append_assoc]
    exact congrArg _ hdone'
  · refine hwhole'.rest ?_
    unfold remaining
    rw [← hdone']

/-- What the whole text yields. -/
def textPayloads (text : List Char) : List (List Char) :=
  completed text ++ lastPayload (remaining text)

/-- The pieces of a text without `\r\r\n` give what the whole text gives. -/
theorem ssePayloads_text (h : Read seen rest cut) (pieces : List (List Char))
    (hcr : ¬ DoubleCr (seen ++ pieces.flatten)) :
    cut.flatMap framePayload ++ (ssePayloads (utf8 describe) [] rest (pieces.map .text)).1
        = textPayloads (seen ++ pieces.flatten) ∧
      (ssePayloads (utf8 describe) [] rest (pieces.map .text)).2 = none := by
  induction pieces generalizing seen rest cut with
  | nil =>
    rw [List.flatten_nil, List.append_nil, List.map_nil, ssePayloads_nil]
    unfold textPayloads completed remaining
    rw [h.eq]
    exact ⟨rfl, rfl⟩
  | cons w pieces ih =>
    rw [List.flatten_cons, ← List.append_assoc] at hcr ⊢
    have hpart : ¬ DoubleCr (seen ++ w) :=
      fun hs => hcr (hs.trans (List.prefix_append _ _).isInfix)
    obtain ⟨hrun, hraised⟩ := ih (h.next w hpart) hcr
    rw [List.flatMap_append, List.append_assoc] at hrun
    rw [List.map_cons, ssePayloads_text_cons]
    exact ⟨hrun, hraised⟩

theorem payloadsOf_eq {text : List Char} {chunks : List (List UInt8)}
    (h : chunks.flatten = Utf8.encode text) (hcr : ¬ DoubleCr text) :
    payloadsOf describe chunks = (textPayloads text, none) := by
  obtain ⟨pieces, rfl, hsame⟩ := @ssePayloads_bytes describe [] text (Or.inl rfl) [] chunks h
  obtain ⟨hrun, hraised⟩ := @ssePayloads_text describe [] [] [] Read.nil pieces hcr
  unfold payloadsOf
  rw [hsame]
  exact Prod.ext hrun hraised

/-- In one chunk, any text. -/
theorem payloadsOf_one (text : List Char) :
    payloadsOf describe [Utf8.encode text] = (textPayloads text, none) := by
  have hdecode : (utf8 describe).decode [] (Utf8.encode text) = .ok ([], text) := by
    have hdone := @Utf8.decode_encode [] [] (Or.inl rfl) text
    rw [List.append_nil] at hdone
    simp only [utf8, List.nil_append, hdone]
  unfold payloadsOf
  rw [List.map_cons, List.map_nil, ssePayloads_bytes_cons hdecode, ssePayloads_nil]
  rfl

end SparkDeck.Responses
