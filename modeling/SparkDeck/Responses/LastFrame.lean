import Mathlib.Data.List.TakeWhile
import SparkDeck.Responses.Chunking

/-!
# The last frame and the missing blank line

A frame that a blank line ends is split at `\n`, what is left at the end of the upstream by
`splitlines`.

* `Even` says of a line that the two do not differ there: it has no other line break, or what
  follows one is no `data:` line and its own value, if it has one, is blank.
* `framePayload_eq_iff`: they yield the same exactly if every line is even, or the only value is a
  blank one that only `splitlines` sees.
* `indifferent_of`: when the payloads depend on the text alone; `payloads_differ`: not always.
-/

namespace SparkDeck.Responses

/-! ## Lines -/

section lines

variable {p : Char → Bool}

theorem linesAt_ne_nil (s : List Char) : linesAt p s ≠ [] := by
  cases s with
  | nil => exact List.cons_ne_nil _ _
  | cons c s =>
    unfold linesAt
    split
    · exact List.cons_ne_nil _ _
    · split <;> exact List.cons_ne_nil _ _

variable {c : Char}

theorem linesAt_cons_of_break (hc : p c) (s : List Char) :
    linesAt p (c :: s) = [] :: linesAt p s := by
  rw [linesAt, if_pos hc]

variable {ls : List (List Char)}

theorem linesAt_cons_of_not (hc : p c = false) {s l : List Char} (hs : linesAt p s = l :: ls) :
    linesAt p (c :: s) = (c :: l) :: ls := by
  rw [linesAt, if_neg (ne_true_of_eq_false hc), hs]

theorem linesAt_clear {s : List Char} (h : ∀ c ∈ s, p c = false) : linesAt p s = [s] := by
  induction s with
  | nil => rfl
  | cons c s ih =>
    exact linesAt_cons_of_not (h c List.mem_cons_self)
      (ih fun d hd => h d (List.mem_cons_of_mem c hd))

theorem linesAt_append_break {a : List Char} (ha : ∀ c ∈ a, p c = false) (hc : p c = true)
    (s : List Char) : linesAt p (a ++ c :: s) = a :: linesAt p s := by
  induction a with
  | nil => exact linesAt_cons_of_break hc s
  | cons d a ih =>
    exact linesAt_cons_of_not (ha d List.mem_cons_self)
      (ih fun e he => ha e (List.mem_cons_of_mem d he))

/-- A text up to its first break. -/
theorem linesAt_cases (s : List Char) :
    (∀ c ∈ s, p c = false) ∨
      ∃ a c r, s = a ++ c :: r ∧ (∀ d ∈ a, p d = false) ∧ p c = true := by
  induction s with
  | nil => exact Or.inl fun c hc => (List.not_mem_nil hc).elim
  | cons c s ih =>
    by_cases hc : p c
    · exact Or.inr ⟨[], c, s, rfl, fun d hd => (List.not_mem_nil hd).elim, hc⟩
    · have hc := eq_false_of_ne_true hc
      obtain hs | ⟨a, d, r, rfl, ha, hd⟩ := ih
      · exact Or.inl (List.forall_mem_cons.mpr ⟨hc, hs⟩)
      · exact Or.inr ⟨c :: a, d, r, rfl, List.forall_mem_cons.mpr ⟨hc, ha⟩, hd⟩

theorem clear_of_mem_linesAt {s l : List Char} (h : l ∈ linesAt p s) : ∀ c ∈ l, p c = false := by
  induction s generalizing l with
  | nil =>
    obtain rfl := List.mem_singleton.mp h
    exact fun c hc => (List.not_mem_nil hc).elim
  | cons c s ih =>
    by_cases hc : p c
    · rw [linesAt_cons_of_break hc] at h
      obtain rfl | h := List.mem_cons.mp h
      · exact fun c hc => (List.not_mem_nil hc).elim
      · exact ih h
    · obtain ⟨m, ms, hs⟩ := List.exists_cons_of_ne_nil (linesAt_ne_nil (p := p) s)
      rw [linesAt_cons_of_not (eq_false_of_ne_true hc) hs] at h
      rw [hs] at ih
      obtain rfl | h := List.mem_cons.mp h
      · exact List.forall_mem_cons.mpr ⟨eq_false_of_ne_true hc, ih List.mem_cons_self⟩
      · exact ih (List.mem_cons_of_mem m h)

theorem mem_of_mem_linesAt {s l : List Char} (h : l ∈ linesAt p s) (hc : c ∈ l) : c ∈ s := by
  induction s generalizing l with
  | nil =>
    obtain rfl := List.mem_singleton.mp h
    exact hc
  | cons d s ih =>
    by_cases hd : p d
    · rw [linesAt_cons_of_break hd] at h
      obtain rfl | h := List.mem_cons.mp h
      · exact (List.not_mem_nil hc).elim
      · exact List.mem_cons_of_mem d (ih h hc)
    · obtain ⟨m, ms, hs⟩ := List.exists_cons_of_ne_nil (linesAt_ne_nil (p := p) s)
      rw [linesAt_cons_of_not (eq_false_of_ne_true hd) hs] at h
      rw [hs] at ih
      obtain rfl | h := List.mem_cons.mp h
      · obtain rfl | hc := List.mem_cons.mp hc
        · exact List.mem_cons_self
        · exact List.mem_cons_of_mem d (ih List.mem_cons_self hc)
      · exact List.mem_cons_of_mem d (ih (List.mem_cons_of_mem m h) hc)

/-- Finer breaks split every line further. -/
theorem linesAt_flatMap {q : Char → Bool} (hq : ∀ c, q c → p c) (s : List Char) :
    linesAt p s = (linesAt q s).flatMap (linesAt p) := by
  induction s with
  | nil => rfl
  | cons c s ih =>
    by_cases hqc : q c
    · rw [linesAt_cons_of_break hqc, linesAt_cons_of_break (hq c hqc), ih]
      rfl
    · obtain ⟨m, ms, hs⟩ := List.exists_cons_of_ne_nil (linesAt_ne_nil (p := q) s)
      rw [hs, List.flatMap_cons] at ih
      rw [linesAt_cons_of_not (eq_false_of_ne_true hqc) hs, List.flatMap_cons]
      by_cases hpc : p c
      · rw [linesAt_cons_of_break hpc, linesAt_cons_of_break hpc, ih]
        rfl
      · have hpc := eq_false_of_ne_true hpc
        obtain ⟨k, ks, hm⟩ := List.exists_cons_of_ne_nil (linesAt_ne_nil (p := p) m)
        rw [hm] at ih
        rw [linesAt_cons_of_not hpc ih, linesAt_cons_of_not hpc hm]
        rfl

/-- Lines that have no break are the lines of their join. -/
theorem linesAt_intercalate (hc : p c) (hne : ls ≠ [])
    (hls : ∀ l ∈ ls, ∀ d ∈ l, p d = false) : linesAt p (List.intercalate [c] ls) = ls := by
  induction ls with
  | nil => exact absurd rfl hne
  | cons l ls ih =>
    obtain ⟨hl, hrest⟩ := List.forall_mem_cons.mp hls
    cases ls with
    | nil =>
      rw [List.intercalate_singleton]
      exact linesAt_clear hl
    | cons m ls =>
      rw [List.intercalate_cons_cons, List.append_assoc, List.singleton_append,
        linesAt_append_break hl hc, ih (List.cons_ne_nil m ls) hrest]

end lines

/-! ## Values -/

def isData (line : List Char) : Bool := ['d', 'a', 't', 'a', ':'].isPrefixOf line

def value (line : List Char) : List Char := (line.drop 5).dropWhile isSpace

def values (lines : List (List Char)) : List (List Char) := (lines.filter isData).map value

theorem dataOf_eq (lines : List (List Char)) :
    dataOf lines = List.intercalate ['\n'] (values lines) := rfl

variable {l : List Char}

theorem values_cons_of_data (h : isData l) (ls : List (List Char)) :
    values (l :: ls) = value l :: values ls := by
  unfold values
  rw [List.filter_cons, if_pos h, List.map_cons]

theorem values_cons_of_not (h : isData l = false) (ls : List (List Char)) :
    values (l :: ls) = values ls := by
  unfold values
  rw [List.filter_cons, if_neg (ne_true_of_eq_false h)]

theorem values_append (ls ms : List (List Char)) : values (ls ++ ms) = values ls ++ values ms := by
  unfold values
  rw [List.filter_append, List.map_append]

theorem values_flatMap (ls : List (List Char)) (f : List Char → List (List Char)) :
    values (ls.flatMap f) = ls.flatMap fun l => values (f l) := by
  induction ls with
  | nil => rfl
  | cons l ls ih => rw [List.flatMap_cons, List.flatMap_cons, values_append, ih]

theorem values_nil_iff {ls : List (List Char)} : values ls = [] ↔ ∀ l ∈ ls, isData l = false := by
  unfold values
  rw [List.map_eq_nil_iff, List.filter_eq_nil_iff]
  exact forall₂_congr fun l _ => iff_of_eq (Bool.not_eq_true _)

theorem clear_value {p : Char → Bool} (h : ∀ c ∈ l, p c = false) : ∀ c ∈ value l, p c = false :=
  fun c hc => h c (List.mem_of_mem_drop ((List.dropWhile_suffix isSpace).mem hc))

theorem mem_values {ls : List (List Char)} {v : List Char} (h : v ∈ values ls) :
    ∃ l ∈ ls, v = value l := by
  obtain ⟨l, hl, rfl⟩ := List.mem_map.mp h
  exact ⟨l, (List.mem_filter.mp hl).1, rfl⟩

theorem linesAt_concat_break {p : Char → Bool} {c : Char} (hc : p c) (s : List Char) :
    linesAt p (s ++ [c]) = linesAt p s ++ [[]] := by
  induction s with
  | nil => exact linesAt_cons_of_break hc []
  | cons d s ih =>
    by_cases hd : p d
    · rw [List.cons_append, linesAt_cons_of_break hd, linesAt_cons_of_break hd, ih]
      rfl
    · have hd := eq_false_of_ne_true hd
      obtain ⟨m, ms, hs⟩ := List.exists_cons_of_ne_nil (linesAt_ne_nil (p := p) s)
      rw [hs] at ih
      rw [List.cons_append, linesAt_cons_of_not hd ih, linesAt_cons_of_not hd hs]
      rfl

theorem isPrefixOf_append_break {p : Char → Bool} {k : List Char} (hk : ∀ c ∈ k, p c = false)
    {c : Char} (hc : p c) (a r : List Char) :
    k.isPrefixOf (a ++ c :: r) = k.isPrefixOf a := by
  induction k generalizing a with
  | nil => simp
  | cons x k ih =>
    obtain ⟨hx, hrest⟩ := List.forall_mem_cons.mp hk
    cases a with
    | nil =>
      have hne : (x == c) = false := by
        rw [beq_eq_false_iff_ne]
        rintro rfl
        rw [hx] at hc
        cases hc
      change ((x == c) && k.isPrefixOf r) = false
      rw [hne, Bool.false_and]
    | cons y a => rw [List.cons_append, List.isPrefixOf, List.isPrefixOf, ih hrest]

theorem isData_append_break {c : Char} (hc : isBoundary c) (a r : List Char) :
    isData (a ++ c :: r) = isData a := by
  refine isPrefixOf_append_break (fun d hd => ?_) hc a r
  simp only [List.mem_cons, List.not_mem_nil, or_false] at hd
  obtain rfl | rfl | rfl | rfl | rfl := hd <;> rfl

/-- The value of a line goes on behind a break, unless there is none before it. -/
theorem value_append_break {a : List Char} (ha : isData a) (c : Char) (r : List Char) :
    value a = value (a ++ c :: r) ↔ value (a ++ c :: r) = [] := by
  obtain ⟨a, rfl⟩ := List.isPrefixOf_iff_prefix.mp ha
  have hdrop (u : List Char) : (['d', 'a', 't', 'a', ':'] ++ u).drop 5 = u := rfl
  unfold value
  rw [List.append_assoc, hdrop, hdrop]
  by_cases hblank : ∀ x ∈ a, isSpace x
  · rw [List.dropWhile_eq_nil_iff.mpr hblank]
    exact eq_comm
  · have hne : a.dropWhile isSpace ≠ [] := fun hn => hblank (List.dropWhile_eq_nil_iff.mp hn)
    have hsplit : (a ++ c :: r).dropWhile isSpace = a.dropWhile isSpace ++ c :: r := by
      rw [List.dropWhile_append, if_neg]
      exact fun hn => hne (List.isEmpty_iff.mp hn)
    rw [hsplit]
    constructor
    · intro h
      exact absurd (List.append_right_eq_self.mp h.symm) (List.cons_ne_nil c r)
    · intro h
      exact absurd (List.append_eq_nil_iff.mp h).1 hne

/-- No line break within the line makes a difference. -/
def Even (line : List Char) : Prop :=
  (isData line = true → value line = [] ∨ ∀ c ∈ line, isBoundary c = false) ∧
    ∀ piece ∈ (linesAt isBoundary line).tail, isData piece = false

instance (line : List Char) : Decidable (Even line) :=
  letI : Decidable (∀ c ∈ line, isBoundary c = false) := List.decidableBAll _ line
  inferInstanceAs (Decidable ((isData line → value line = [] ∨
    ∀ c ∈ line, isBoundary c = false) ∧
    ∀ piece ∈ (linesAt isBoundary line).tail, isData piece = false))

theorem values_singleton (l : List Char) :
    values [l] = if isData l then [value l] else [] := by
  split
  case isTrue h => exact values_cons_of_data h []
  case isFalse h => exact values_cons_of_not (eq_false_of_ne_true h) []

theorem values_line_iff (l : List Char) :
    values (linesAt isBoundary l) = values [l] ↔ Even l := by
  unfold Even
  obtain hclear | ⟨a, c, r, rfl, ha, hc⟩ := linesAt_cases (p := isBoundary) l
  · rw [linesAt_clear hclear]
    exact iff_of_true rfl ⟨fun _ => Or.inr hclear, fun _ hp => (List.not_mem_nil hp).elim⟩
  · have hbreak : ¬ ∀ d ∈ a ++ c :: r, isBoundary d = false := fun h => by
      have hnot := h c (List.mem_append_right a List.mem_cons_self)
      rw [hc] at hnot
      cases hnot
    rw [linesAt_append_break ha hc, values_singleton, List.tail_cons, isData_append_break hc]
    by_cases hdata : isData a
    · rw [values_cons_of_data hdata, if_pos hdata, List.cons.injEq, values_nil_iff,
        value_append_break hdata]
      exact and_congr_left fun _ => ⟨fun h _ => Or.inl h, fun h => (h hdata).resolve_right hbreak⟩
    · rw [values_cons_of_not (eq_false_of_ne_true hdata), if_neg hdata, values_nil_iff]
      exact (and_iff_right fun h => absurd h hdata).symm

theorem length_values_line (l : List Char) :
    (values [l]).length ≤ (values (linesAt isBoundary l)).length := by
  obtain hclear | ⟨a, c, r, rfl, ha, hc⟩ := linesAt_cases (p := isBoundary) l
  · rw [linesAt_clear hclear]
  · rw [linesAt_append_break ha hc, values_singleton, isData_append_break hc]
    by_cases hdata : isData a
    · rw [values_cons_of_data hdata, if_pos hdata]
      exact Nat.succ_le_succ (Nat.zero_le _)
    · rw [if_neg hdata]
      exact Nat.zero_le _

theorem length_flatMap_le {α β : Type} {f g : α → List β} {ls : List α}
    (hle : ∀ l ∈ ls, (f l).length ≤ (g l).length) :
    (ls.flatMap f).length ≤ (ls.flatMap g).length := by
  induction ls with
  | nil => exact le_rfl
  | cons l ls ih =>
    obtain ⟨hl, hrest⟩ := List.forall_mem_cons.mp hle
    have hls := ih hrest
    rw [List.flatMap_cons, List.flatMap_cons, List.length_append, List.length_append]
    omega

theorem flatMap_eq_iff {α β : Type} {f g : α → List β} {ls : List α}
    (hle : ∀ l ∈ ls, (f l).length ≤ (g l).length) :
    ls.flatMap g = ls.flatMap f ↔ ∀ l ∈ ls, g l = f l := by
  induction ls with
  | nil => exact iff_of_true rfl fun _ h => (List.not_mem_nil h).elim
  | cons l ls ih =>
    obtain ⟨hl, hrest⟩ := List.forall_mem_cons.mp hle
    have hls := ih hrest
    rw [List.forall_mem_cons, ← hls, List.flatMap_cons, List.flatMap_cons]
    constructor
    · intro h
      have htotal := congrArg List.length h
      rw [List.length_append, List.length_append] at htotal
      have hlength := length_flatMap_le hrest
      exact List.append_inj h (by omega)
    · rintro ⟨h, h'⟩
      rw [h, h']

/-! ## What the two ways to split yield -/

/-- What the last frame yields does not depend on how it is split. -/
def EvenFrame (frame : List Char) : Prop :=
  (∀ line ∈ linesAt (· = '\n') frame, Even line) ∨
    values (linesAt (· = '\n') frame) = [] ∧ values (linesAt isBoundary frame) = [[]]

instance (frame : List Char) : Decidable (EvenFrame frame) :=
  inferInstanceAs (Decidable ((∀ line ∈ linesAt (· = '\n') frame, Even line) ∨
    values (linesAt (· = '\n') frame) = [] ∧ values (linesAt isBoundary frame) = [[]]))

theorem payloadOf_eq_iff {ls ms : List (List Char)} :
    payloadOf ls = payloadOf ms ↔ dataOf ls = dataOf ms := by
  unfold payloadOf
  by_cases hl : dataOf ls = []
  · rw [if_pos hl, hl]
    by_cases hm : dataOf ms = []
    · rw [if_pos hm, hm]
      exact iff_of_true rfl rfl
    · rw [if_neg hm]
      exact iff_of_false (List.cons_ne_nil _ _).symm (Ne.symm hm)
  · rw [if_neg hl]
    by_cases hm : dataOf ms = []
    · rw [if_pos hm, hm]
      exact iff_of_false (List.cons_ne_nil _ _) hl
    · rw [if_neg hm]
      exact List.singleton_inj

theorem isBoundary_newline {c : Char} (h : decide (c = '\n')) : isBoundary c := by
  obtain rfl := of_decide_eq_true h
  rfl

theorem clear_of_mem_values {p : Char → Bool} {s v : List Char} (h : v ∈ values (linesAt p s)) :
    ∀ c ∈ v, p c = false := by
  obtain ⟨l, hl, rfl⟩ := mem_values h
  exact clear_value (clear_of_mem_linesAt hl)

theorem intercalate_eq_iff {vs ws : List (List Char)}
    (hvs : ∀ v ∈ vs, ∀ c ∈ v, decide (c = '\n') = false)
    (hws : ∀ w ∈ ws, ∀ c ∈ w, decide (c = '\n') = false) (hle : vs.length ≤ ws.length) :
    List.intercalate ['\n'] vs = List.intercalate ['\n'] ws ↔
      ws = vs ∨ vs = [] ∧ ws = [[]] := by
  constructor
  · intro h
    by_cases hv : vs = []
    · subst hv
      by_cases hw : ws = []
      · exact Or.inl hw
      · refine Or.inr ⟨rfl, ?_⟩
        rw [← linesAt_intercalate (p := (· = '\n')) (c := '\n') rfl hw hws, ← h]
        rfl
    · have hw : ws ≠ [] := by
        rintro rfl
        exact hv (List.length_eq_zero_iff.mp (Nat.le_zero.mp hle))
      rw [← linesAt_intercalate (p := (· = '\n')) (c := '\n') rfl hw hws, ← h,
        linesAt_intercalate (p := (· = '\n')) (c := '\n') rfl hv hvs]
      exact Or.inl rfl
  · rintro (rfl | ⟨rfl, rfl⟩) <;> rfl

theorem values_newline (s : List Char) :
    values (linesAt (· = '\n') s) = (linesAt (· = '\n') s).flatMap fun l => values [l] := by
  rw [← values_flatMap, List.flatMap_singleton']

theorem values_boundary (s : List Char) :
    values (linesAt isBoundary s)
      = (linesAt (· = '\n') s).flatMap fun l => values (linesAt isBoundary l) := by
  rw [linesAt_flatMap (q := (· = '\n')) fun c => isBoundary_newline, values_flatMap]

theorem lastPayload_eq (s : List Char) : lastPayload s = payloadOf (linesAt isBoundary s) := by
  unfold lastPayload
  split
  case isTrue hblank =>
    have hnone : values (linesAt isBoundary s) = [] := by
      rw [values_nil_iff]
      intro l hl
      refine eq_false_of_ne_true fun hdata => ?_
      obtain ⟨r, rfl⟩ := List.isPrefixOf_iff_prefix.mp hdata
      have hspace := List.all_eq_true.mp hblank 'd' (mem_of_mem_linesAt hl List.mem_cons_self)
      cases hspace
    unfold payloadOf
    rw [dataOf_eq, hnone]
    rfl
  case isFalse => rfl

theorem framePayload_eq_iff (s : List Char) :
    framePayload s = lastPayload s ↔ EvenFrame s := by
  have hle : (values (linesAt (· = '\n') s)).length ≤ (values (linesAt isBoundary s)).length := by
    rw [values_newline, values_boundary]
    exact length_flatMap_le fun l _ => length_values_line l
  have hclear : ∀ w ∈ values (linesAt isBoundary s), ∀ c ∈ w, decide (c = '\n') = false := by
    intro w hw c hc
    have hc := clear_of_mem_values hw c hc
    exact decide_eq_false fun hn => by rw [hn] at hc; cases hc
  unfold framePayload EvenFrame
  rw [lastPayload_eq, payloadOf_eq_iff, dataOf_eq, dataOf_eq,
    intercalate_eq_iff (fun v hv => clear_of_mem_values hv) hclear hle, values_newline,
    values_boundary, flatMap_eq_iff fun l _ => length_values_line l]
  simp only [values_line_iff]

/-! ## The missing blank line -/

/-- What ends the last frame of a text. -/
def blankLine (text : List Char) : List Char :=
  if text.getLast? = some '\n' then ['\n'] else ['\n', '\n']

/-- A last `\r` is taken for half of a line break when the blank line comes. -/
def dropCr (s : List Char) : List Char := if s.getLast? = some '\r' then s.dropLast else s

theorem dropCr_concat (s : List Char) : dropCr (s ++ ['\r']) = s := by
  unfold dropCr
  rw [List.getLast?_concat, if_pos rfl, List.dropLast_concat]

variable {s : List Char}

theorem dropCr_of_ne (h : s.getLast? ≠ some '\r') : dropCr s = s := if_neg h

theorem framePayload_concat (s : List Char) : framePayload (s ++ ['\n']) = framePayload s := by
  unfold framePayload
  rw [payloadOf_eq_iff, dataOf_eq, dataOf_eq, linesAt_concat_break rfl, values_append]
  simp [values, isData]

theorem lastPayload_dropCr (s : List Char) : lastPayload (dropCr s) = lastPayload s := by
  by_cases h : s.getLast? = some '\r'
  · obtain ⟨s, rfl⟩ := List.getLast?_eq_some_iff.mp h
    rw [dropCr_concat, lastPayload_eq, lastPayload_eq, payloadOf_eq_iff, dataOf_eq, dataOf_eq,
      linesAt_concat_break rfl, values_append]
    simp [values, isData]
  · rw [dropCr_of_ne h]

/-- No blank line in the text. -/
def Open (s : List Char) : Prop := s.IsChain fun a b => ¬(a = '\n' ∧ b = '\n')

theorem frames_eq_nil_iff : frames s = ([], s) ↔ Open s := by
  induction s with
  | nil => exact iff_of_true rfl List.isChain_nil
  | cons c s ih =>
    by_cases hc : c = '\n' ∧ s.head? = some '\n'
    · obtain ⟨rfl, hs⟩ := hc
      obtain ⟨s, rfl⟩ := List.head?_eq_some_iff.mp hs
      refine iff_of_false (fun h => ?_) fun h => (List.isChain_cons_cons.mp h).1 ⟨rfl, rfl⟩
      simp [frames] at h
    · have hchain : Open (c :: s) ↔ Open s := by
        unfold Open
        rw [List.isChain_cons]
        refine and_iff_right fun d hd hn => hc ?_
        obtain ⟨rfl, rfl⟩ := hn
        exact ⟨rfl, hd⟩
      rw [frames_cons hc, hchain, ← ih]
      constructor
      · intro h
        split at h
        · cases h
        · next last hs =>
          rw [hs]
          exact Prod.ext rfl (List.cons.inj (Prod.mk.inj h).2).2
      · intro h
        rw [h]

/-- A blank line ends what is open. -/
theorem frames_close (h : Open s) (hlast : s.getLast? ≠ some '\n') (w : List Char) :
    frames (s ++ '\n' :: '\n' :: w) = (s :: (frames w).1, (frames w).2) := by
  induction s with
  | nil => rfl
  | cons c s ih =>
    have hc : ¬(c = '\n' ∧ (s ++ '\n' :: '\n' :: w).head? = some '\n') := by
      rintro ⟨rfl, hs⟩
      cases s with
      | nil => exact hlast rfl
      | cons d s => exact (List.isChain_cons_cons.mp h).1 ⟨rfl, Option.some.inj hs⟩
    have hs : s.getLast? ≠ some '\n' := by
      cases s with
      | nil => exact fun hn => by cases hn
      | cons d s => rwa [List.getLast?_cons_cons] at hlast
    rw [List.cons_append, frames_cons hc, ih (List.isChain_cons.mp h).2 hs]

/-- Two line ends close it however it ends. -/
theorem frames_close_two (h : Open s) :
    ((frames (s ++ ['\n', '\n'])).1.flatMap framePayload = framePayload s) ∧
      lastPayload (frames (s ++ ['\n', '\n'])).2 = [] := by
  by_cases hlast : s.getLast? = some '\n'
  · obtain ⟨s, rfl⟩ := List.getLast?_eq_some_iff.mp hlast
    obtain ⟨hs, -, hend⟩ := List.isChain_append.mp h
    have hopen : s.getLast? ≠ some '\n' := fun hn => hend '\n' hn '\n' rfl ⟨rfl, rfl⟩
    have happ : s ++ ['\n'] ++ ['\n', '\n'] = s ++ '\n' :: '\n' :: ['\n'] := by
      rw [List.append_assoc]
      rfl
    rw [happ, frames_close hs hopen, framePayload_concat]
    exact ⟨List.append_nil _, rfl⟩
  · rw [frames_close h hlast]
    exact ⟨List.append_nil _, rfl⟩

theorem getLast?_newlines (s : List Char) : (newlines s).getLast? = s.getLast? := by
  induction s using newlines.induct with
  | case1 s ih =>
    simp only [newlines]
    rw [List.getLast?_cons, ih, List.getLast?_cons, List.getLast?_cons]
    rfl
  | case2 c s hno ih =>
    rw [newlines.eq_2 c s hno, List.getLast?_cons, ih, List.getLast?_cons]
  | case3 => rfl

theorem newlines_blankLine {text : List Char} (h : text.getLast? ≠ some '\n') :
    newlines (text ++ ['\n', '\n']) = dropCr (newlines text) ++ ['\n', '\n'] := by
  have htwo : newlines ['\n', '\n'] = ['\n', '\n'] := newlines_plain (by unfold Plain; decide)
  by_cases hcr : text.getLast? = some '\r'
  · obtain ⟨text, rfl⟩ := List.getLast?_eq_some_iff.mp hcr
    have hone : newlines ['\r'] = ['\r'] := newlines_plain (by unfold Plain; decide)
    have hleft : newlines (text ++ ['\r']) = newlines text ++ ['\r'] := by
      rw [newlines_append fun hn => absurd hn.2 (by decide), hone]
    have happ : text ++ ['\r'] ++ ['\n', '\n'] = text ++ '\r' :: '\n' :: ['\n'] := by
      rw [List.append_assoc]
      rfl
    rw [hleft, dropCr_concat, happ, newlines_append fun hn => absurd hn.2 (by decide)]
    rfl
  · rw [newlines_append fun hn => hcr hn.1, htwo,
      dropCr_of_ne (by rw [getLast?_newlines]; exact hcr)]

/-- With the missing blank line the last frame is split like the others. -/
theorem textPayloads_blankLine (text : List Char) :
    textPayloads (text ++ blankLine text)
      = completed text ++ framePayload (dropCr (remaining text)) := by
  obtain ⟨done, hspec, hwhole⟩ := frames_spec (newlines text)
  have hdone : newlines text = done ++ remaining text := hspec
  have hopen : Open (remaining text) := by
    rw [← frames_eq_nil_iff]
    refine hwhole.rest ?_
    rw [← hdone]
    rfl
  have hpart {s : List Char} (w : List Char) (hs : newlines (text ++ w) = done ++ s) :
      textPayloads (text ++ w) = completed text ++
        ((frames s).1.flatMap framePayload ++ lastPayload (frames s).2) := by
    unfold textPayloads completed remaining
    rw [hs, hwhole.splits, List.flatMap_append, List.append_assoc]
  have hlast := getLast?_newlines text
  rw [hdone] at hlast
  unfold blankLine
  split
  case isTrue hn =>
    have hnew : newlines (text ++ ['\n']) = done ++ (remaining text ++ ['\n']) := by
      rw [newlines_append fun hcr => by rw [hn] at hcr; exact absurd hcr.1 (by decide),
        ← List.append_assoc, ← hdone]
      rfl
    rw [hpart _ hnew]
    congr 1
    rw [hn] at hlast
    by_cases hnil : remaining text = []
    · rw [hnil]
      rfl
    · rw [List.getLast?_append_of_ne_nil _ hnil] at hlast
      have hcr : dropCr (remaining text) = remaining text :=
        dropCr_of_ne fun hcr => by rw [hlast] at hcr; cases hcr
      rw [hcr]
      obtain ⟨s, hs⟩ := List.getLast?_eq_some_iff.mp hlast
      rw [hs] at hopen ⊢
      obtain ⟨hs, -, hend⟩ := List.isChain_append.mp hopen
      have hend : s.getLast? ≠ some '\n' := fun hn => hend '\n' hn '\n' rfl ⟨rfl, rfl⟩
      rw [List.append_assoc, List.singleton_append, frames_close hs hend, framePayload_concat]
      exact (List.append_nil _).trans (List.append_nil _)
  case isFalse hn =>
    have hdrop : dropCr (newlines text) = done ++ dropCr (remaining text) := by
      rw [hdone]
      by_cases hnil : remaining text = []
      · rw [hnil, List.append_nil] at hlast ⊢
        obtain rfl | hends := hwhole.ends
        · rfl
        · rw [hends] at hlast
          exact absurd hlast.symm hn
      · unfold dropCr
        rw [List.getLast?_append_of_ne_nil _ hnil]
        split
        · exact List.dropLast_append_of_ne_nil hnil
        · rfl
    have hnew : newlines (text ++ ['\n', '\n'])
        = done ++ (dropCr (remaining text) ++ ['\n', '\n']) := by
      rw [newlines_blankLine hn, hdrop, List.append_assoc]
    have hopen' : Open (dropCr (remaining text)) := by
      unfold dropCr
      split
      · exact hopen.dropLast
      · exact hopen
    obtain ⟨hframe, hrest⟩ := frames_close_two hopen'
    rw [hpart _ hnew, hframe, hrest, List.append_nil]

/-! ## What the payloads depend on -/

/-- However the text is cut, and whether or not a blank line ends its last frame, the payloads are
the same. -/
def Indifferent (describe : List UInt8 → DecodeError) (text : List Char) : Prop :=
  ∀ chunks chunks' : List (List UInt8), chunks.flatten = Utf8.encode text →
    (chunks'.flatten = Utf8.encode text ∨
      chunks'.flatten = Utf8.encode (text ++ blankLine text)) →
    payloadsOf describe chunks = payloadsOf describe chunks'

theorem even_iff (text : List Char) :
    textPayloads text = textPayloads (text ++ blankLine text) ↔
      EvenFrame (dropCr (remaining text)) := by
  rw [textPayloads_blankLine, ← framePayload_eq_iff, lastPayload_dropCr]
  unfold textPayloads
  rw [List.append_right_inj]
  exact eq_comm

/-- No `\r\r\n` and a last frame that splits the same either way are enough; of the two, the latter
is needed in any text. -/
theorem indifferent_of (describe : List UInt8 → DecodeError) (text : List Char) :
    (¬ DoubleCr (text ++ blankLine text) ∧ EvenFrame (dropCr (remaining text)) →
      Indifferent describe text) ∧
    (Indifferent describe text → EvenFrame (dropCr (remaining text))) := by
  constructor
  · rintro ⟨hcr, heven⟩ chunks chunks' h h'
    have hcr' : ¬ DoubleCr text := fun hs => hcr (hs.trans (List.prefix_append _ _).isInfix)
    rw [payloadsOf_eq h hcr']
    obtain h' | h' := h'
    · rw [payloadsOf_eq h' hcr']
    · rw [payloadsOf_eq h' hcr, (even_iff text).mpr heven]
  · intro h
    have hone := h [Utf8.encode text] [Utf8.encode (text ++ blankLine text)]
      (List.append_nil _) (Or.inr (List.append_nil _))
    rw [payloadsOf_one, payloadsOf_one] at hone
    exact (even_iff text).mp (Prod.mk.inj hone).1

def undecodable : DecodeError := ⟨"invalid start byte", fun rest h => by
  have hhead := congrArg (fun s => s.toList.head?) h
  simp at hhead⟩

theorem crlf_frames_read : Indifferent (fun _ => undecodable) "data: a\r\n\r\ndata: b".toList :=
  (indifferent_of _ _).1 ⟨by decide +kernel, by decide +kernel⟩

/-- In one chunk `\r\r\n` keeps a `\r`, in two it does not; and a frame is split at U+2028 only as
long as nothing ends it. -/
theorem payloads_differ :
    (payloadsOf (fun _ => undecodable) [Utf8.encode "data: a\r\r\n\n".toList]).1
        = ["a\r".toList] ∧
    (payloadsOf (fun _ => undecodable)
        [Utf8.encode "data: a\r\r\n".toList, Utf8.encode "\n".toList]).1 = ["a".toList] ∧
    (payloadsOf (fun _ => undecodable) [Utf8.encode "data: x\u2028y".toList]).1
        = ["x".toList] ∧
    (payloadsOf (fun _ => undecodable) [Utf8.encode "data: x\u2028y\n\n".toList]).1
        = ["x\u2028y".toList] ∧
    ¬ ∀ text, Indifferent (fun _ => undecodable) text := by
  have hone : (payloadsOf (fun _ => undecodable) [Utf8.encode "data: a\r\r\n\n".toList]).1
      = ["a\r".toList] := by decide +kernel
  have htwo : (payloadsOf (fun _ => undecodable)
      [Utf8.encode "data: a\r\r\n".toList, Utf8.encode "\n".toList]).1 = ["a".toList] := by
    decide +kernel
  refine ⟨hone, htwo, by decide +kernel, by decide +kernel, fun h => ?_⟩
  have hsame := h "data: a\r\r\n\n".toList [Utf8.encode "data: a\r\r\n\n".toList]
    [Utf8.encode "data: a\r\r\n".toList, Utf8.encode "\n".toList] (by decide +kernel)
    (Or.inl (by decide +kernel))
  rw [← hsame, hone] at htwo
  cases htwo

end SparkDeck.Responses
