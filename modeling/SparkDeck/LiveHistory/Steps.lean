import SparkDeck.LiveHistory.Collector

/-!
# What a call does to a series

* `SameTotals`: closing a bucket, opening the next one and folding nothing in leave what a series
  has counted as it was.
* `Ticked`, `mem_tick`: after a tick a series is one that was there, or a new one, and has been
  folded over the records that the tick observes in its unit.
* `end_series`: the end hook changes the series of the record's unit, or none.
* `Wf`: no two records have the same identity, and no two series the same unit.
-/

namespace SparkDeck.LiveHistory

namespace Series

/-! ## Totals -/

/-- Both have counted the same, and know the same of the requests. -/
structure SameTotals (s t : Series) : Prop where
  tokens : t.tokens = s.tokens
  promptTokens : t.promptTokens = s.promptTokens
  parts : t.parts = s.parts
  previous : t.previous = s.previous
  countedPrompt : t.countedPrompt = s.countedPrompt
  pending : t.pending = s.pending
  episodes : t.episodes = s.episodes
  observed : t.observed = s.observed

variable {s t u : Series}

theorem SameTotals.refl (s : Series) : SameTotals s s := ⟨rfl, rfl, rfl, rfl, rfl, rfl, rfl, rfl⟩

theorem SameTotals.trans (h : SameTotals s t) (h' : SameTotals t u) : SameTotals s u where
  tokens := h'.tokens.trans h.tokens
  promptTokens := h'.promptTokens.trans h.promptTokens
  parts := h'.parts.trans h.parts
  previous := h'.previous.trans h.previous
  countedPrompt := h'.countedPrompt.trans h.countedPrompt
  pending := h'.pending.trans h.pending
  episodes := h'.episodes.trans h.episodes
  observed := h'.observed.trans h.observed

theorem flush_same (hp : s.pending = .empty) : SameTotals s s.flushPending := by
  refine ⟨?_, ?_, rfl, rfl, rfl, hp.symm, rfl, rfl⟩
  · simp [tokens, flushPending, hp, Pending.empty, Bucket.tokens]
  · simp [promptTokens, flushPending, hp, Pending.empty]

theorem bump_same (s : Series) :
    SameTotals s { s with opened := { s.opened with samples := s.opened.samples + 1 } } :=
  ⟨rfl, rfl, rfl, rfl, rfl, rfl, rfl, rfl⟩

/-- A bucket with a sample is closed, and another one opened. -/
theorem close_same (closedAt now : ℚ) (h : s.opened.samples ≠ 0) :
    SameTotals s { s.closeBucket closedAt with openStartedAt := now, opened := .empty } := by
  unfold closeBucket
  rw [if_neg h]
  refine ⟨?_, ?_, ?_, rfl, rfl, rfl, rfl, rfl⟩
  · simp [tokens, Bucket.empty, Bucket.tokens]
  · simp [promptTokens, Bucket.empty]
  · simp [parts, Bucket.empty]

/-! ## Folding -/

/-- The fields that a measurement does not touch. -/
theorem countPrompt_frame (s : Series) (r : Record) :
    (s.countPrompt r).tokens = s.tokens ∧ (s.countPrompt r).parts = s.parts ∧
      (s.countPrompt r).previous = s.previous ∧ (s.countPrompt r).pending = s.pending ∧
      (s.countPrompt r).episodes = s.episodes ∧ (s.countPrompt r).observed = s.observed ∧
      (s.countPrompt r).opened.samples = s.opened.samples := by
  unfold countPrompt
  split
  · exact ⟨rfl, rfl, rfl, rfl, rfl, rfl, rfl⟩
  · exact ⟨rfl, rfl, rfl, rfl, rfl, rfl, rfl⟩

theorem foldl_countPrompt_frame (rs : List Record) (s : Series) :
    (rs.foldl countPrompt s).tokens = s.tokens ∧ (rs.foldl countPrompt s).parts = s.parts ∧
      (rs.foldl countPrompt s).previous = s.previous ∧
      (rs.foldl countPrompt s).pending = s.pending ∧
      (rs.foldl countPrompt s).episodes = s.episodes ∧
      (rs.foldl countPrompt s).observed = s.observed ∧
      (rs.foldl countPrompt s).opened.samples = s.opened.samples := by
  induction rs generalizing s with
  | nil => exact ⟨rfl, rfl, rfl, rfl, rfl, rfl, rfl⟩
  | cons r rs ih =>
    obtain ⟨h1, h2, h3, h4, h5, h6, h7⟩ := ih (s.countPrompt r)
    obtain ⟨g1, g2, g3, g4, g5, g6, g7⟩ := countPrompt_frame s r
    exact ⟨h1.trans g1, h2.trans g2, h3.trans g3, h4.trans g4, h5.trans g5, h6.trans g6,
      h7.trans g7⟩

/-- The tokens of a sample. -/
def gathered (s : Series) (rs : List Record) : ℕ :=
  deltas s.previous .output rs + deltas s.previous .thinking rs

theorem part_rid {r : Record} {p : Part} (h : s.part r = some p) : p.rid = r.rid := by
  unfold part at h
  split at h
  case h_1 =>
    split at h
    case isTrue => rw [← Option.some.inj h]
    case isFalse => cases h
  case h_2 => cases h

theorem part_tokens (s : Series) (r : Record) :
    delta s.previous .output r + delta s.previous .thinking r = (s.part r).elim 0 Part.tokens := by
  unfold delta part
  cases Assoc.get s.previous r.id with
  | none => rfl
  | some x =>
    obtain ⟨-, tokens⟩ := x
    have hle : ¬ tokens < r.totalTokens → r.totalTokens - tokens = 0 := by omega
    cases hstate : r.state with
    | prefill => rfl
    | output | thinking => by_cases hlt : tokens < r.totalTokens <;> simp [hlt, hle, Part.tokens]

/-- What is counted is what the records give. -/
theorem gathered_eq (s : Series) (rs : List Record) :
    s.gathered rs = ((rs.filterMap s.part).map Part.tokens).sum := by
  unfold gathered deltas
  induction rs with
  | nil => rfl
  | cons r rs ih =>
    have hr := part_tokens s r
    simp only [List.map_cons, List.sum_cons, List.filterMap_cons]
    cases hp : s.part r with
    | none =>
      rw [hp, Option.elim_none] at hr
      dsimp only
      omega
    | some p =>
      rw [hp, Option.elim_some] at hr
      simp only [List.map_cons, List.sum_cons]
      omega

/-- A series after a tick that observes the records `rs` in it. -/
structure Folded (s : Series) (rs : List Record) (t : Series) : Prop where
  tokens : t.tokens = s.tokens + s.gathered rs
  parts : t.parts = s.parts
  previous : t.previous = rs.map fun r => (r.id, r.state, r.totalTokens)
  pending : t.pending = .empty
  episodes : t.episodes = s.episodes
  observed : t.observed = s.observed
  /-- The measurements are counted from a series with the same prompts. -/
  prompts : ∃ u : Series, u.promptTokens = s.promptTokens ∧ u.countedPrompt = s.countedPrompt ∧
    t.promptTokens = (rs.foldl countPrompt u).promptTokens ∧
    t.countedPrompt = (rs.foldl countPrompt u).countedPrompt

theorem open_same (hp : s.pending = .empty) :
    SameTotals s { s.flushPending with
      opened := { s.flushPending.opened with samples := s.flushPending.opened.samples + 1 } } :=
  (flush_same hp).trans (bump_same s.flushPending)

theorem gather_samples (entry : Option (List Record)) (s : Series) :
    (s.gather entry).opened.samples ≠ 0 := by
  cases entry with
  | none => exact Nat.succ_ne_zero _
  | some rs =>
    unfold gather foldSample
    rw [(foldl_countPrompt_frame rs _).2.2.2.2.2.2]
    exact Nat.succ_ne_zero _

theorem accumulate_same (entry : Option (List Record)) (now : ℚ) (interval : ℕ) :
    SameTotals (s.gather entry) (s.accumulate entry now interval) := by
  unfold accumulate
  split
  · exact close_same _ now (gather_samples entry s)
  · exact SameTotals.refl _

theorem gather_folded (rs : List Record) (hp : s.pending = .empty) :
    Folded s rs (s.gather (some rs)) := by
  have hopen := open_same hp
  -- the tokens are folded in, then the measurements
  obtain ⟨h1, h2, h3, h4, h5, h6, -⟩ := foldl_countPrompt_frame rs _
  refine ⟨h1.trans ?_, h2.trans hopen.parts, h3.trans rfl, h4.trans rfl, h5.trans rfl, h6.trans rfl,
    _, ?_, ?_, rfl, rfl⟩
  · have htokens := hopen.tokens
    simp only [tokens, Bucket.tokens, gathered] at htokens ⊢
    simp only [flushPending] at htokens ⊢
    omega
  · exact hopen.promptTokens
  · rfl

theorem accumulate_folded (rs : List Record) (now : ℚ) (interval : ℕ) (hp : s.pending = .empty) :
    Folded s rs (s.accumulate (some rs) now interval) := by
  have hmain := gather_folded rs hp
  have hsame := accumulate_same (s := s) (some rs) now interval
  obtain ⟨w, hw1, hw2, hw3, hw4⟩ := hmain.prompts
  exact ⟨hsame.tokens.trans hmain.tokens, hsame.parts.trans hmain.parts,
    hsame.previous.trans hmain.previous, hsame.pending.trans hmain.pending,
    hsame.episodes.trans hmain.episodes, hsame.observed.trans hmain.observed,
    w, hw1, hw2, hsame.promptTokens.trans hw3, hsame.countedPrompt.trans hw4⟩

/-- What a measurement leaves of the open bucket. -/
theorem foldl_countPrompt_bucket (rs : List Record) (s : Series) :
    (rs.foldl countPrompt s).opened.outputTokens = s.opened.outputTokens ∧
      (rs.foldl countPrompt s).opened.thinkingTokens = s.opened.thinkingTokens ∧
      (rs.foldl countPrompt s).opened.parts = s.opened.parts ∧
      (rs.foldl countPrompt s).closed = s.closed ∧
      s.opened.promptTokens ≤ (rs.foldl countPrompt s).opened.promptTokens := by
  induction rs generalizing s with
  | nil => exact ⟨rfl, rfl, rfl, rfl, le_rfl⟩
  | cons r rs ih =>
    obtain ⟨h1, h2, h3, h4, h5⟩ := ih (s.countPrompt r)
    have hr : (s.countPrompt r).opened.outputTokens = s.opened.outputTokens ∧
        (s.countPrompt r).opened.thinkingTokens = s.opened.thinkingTokens ∧
        (s.countPrompt r).opened.parts = s.opened.parts ∧ (s.countPrompt r).closed = s.closed ∧
        s.opened.promptTokens ≤ (s.countPrompt r).opened.promptTokens := by
      unfold countPrompt
      split
      · exact ⟨rfl, rfl, rfl, rfl, le_rfl⟩
      · exact ⟨rfl, rfl, rfl, rfl, Nat.le_add_right _ _⟩
    obtain ⟨g1, g2, g3, g4, g5⟩ := hr
    exact ⟨h1.trans g1, h2.trans g2, h3.trans g3, h4.trans g4, g5.trans h5⟩

/-- The open bucket receives a sample, and is closed or stays open. -/
theorem accumulate_bucket (entry : Option (List Record)) (now : ℚ) (interval : ℕ)
    (hp : s.pending = .empty) :
    ∃ b : Bucket,
      b.outputTokens = s.opened.outputTokens + entry.elim 0 (deltas s.previous .output) ∧
      b.thinkingTokens = s.opened.thinkingTokens + entry.elim 0 (deltas s.previous .thinking) ∧
      s.opened.promptTokens ≤ b.promptTokens ∧ b.parts = s.opened.parts ∧
      (((s.accumulate entry now interval).closed = s.closed ∧
          (s.accumulate entry now interval).opened = b) ∨
        ∃ closedAt, (s.accumulate entry now interval).closed = s.closed ++ [(closedAt, b)] ∧
          (s.accumulate entry now interval).opened = .empty) := by
  have hflush : s.flushPending.opened.outputTokens = s.opened.outputTokens ∧
      s.flushPending.opened.thinkingTokens = s.opened.thinkingTokens ∧
      s.flushPending.opened.promptTokens = s.opened.promptTokens := by
    simp [flushPending, hp, Pending.empty]
  have hbucket : (s.gather entry).opened.outputTokens =
        s.opened.outputTokens + entry.elim 0 (deltas s.previous .output) ∧
      (s.gather entry).opened.thinkingTokens =
        s.opened.thinkingTokens + entry.elim 0 (deltas s.previous .thinking) ∧
      s.opened.promptTokens ≤ (s.gather entry).opened.promptTokens ∧
      (s.gather entry).opened.parts = s.opened.parts ∧ (s.gather entry).closed = s.closed := by
    obtain ⟨f1, f2, f3⟩ := hflush
    cases entry with
    | none => exact ⟨f1, f2, f3.ge, rfl, rfl⟩
    | some rs =>
      obtain ⟨h1, h2, h3, h4, h5⟩ := foldl_countPrompt_bucket rs _
      refine ⟨h1.trans ?_, h2.trans ?_, le_trans ?_ h5, h3, h4⟩
      · exact congrArg (· + _) f1
      · exact congrArg (· + _) f2
      · exact f3.ge
  obtain ⟨h1, h2, h3, h4, h5⟩ := hbucket
  refine ⟨(s.gather entry).opened, h1, h2, h3, h4, ?_⟩
  unfold accumulate
  split
  · refine Or.inr ⟨s.openStartedAt + interval, ?_, rfl⟩
    unfold closeBucket
    rw [if_neg (gather_samples entry s)]
    exact congrArg (· ++ _) h5
  · exact Or.inl ⟨h5, rfl⟩

/-- The series of a unit after a tick that observes the records `rs` in it. -/
def Ticked (rs : List Record) (s t : Series) : Prop :=
  ∃ now interval, t = (s.note rs).sample rs now interval ∨
    (rs = [] ∧ t = (s.note []).idle now interval)

variable {rs : List Record}

theorem get_filter_ids {l : List (ℕ × Session × ℕ)} {r : Record} (h : r ∈ rs) :
    Assoc.get (l.filter fun x => rs.any fun r => r.id = x.1) r.id = Assoc.get l r.id := by
  induction l with
  | nil => rfl
  | cons x l ih =>
    by_cases hx : x.1 = r.id
    · have hany : (rs.any fun q => q.id = x.1) = true :=
        List.any_eq_true.mpr ⟨r, h, decide_eq_true hx.symm⟩
      rw [List.filter_cons, if_pos hany]
      simp only [Assoc.get, hx, if_true]
    · rw [List.filter_cons]
      split
      · simp only [Assoc.get, hx, if_false]
        exact ih
      · simp only [Assoc.get, hx, if_false]
        exact ih

theorem deltas_filter_ids (l : List (ℕ × Session × ℕ)) (state : Session) (rs : List Record) :
    deltas (l.filter fun x => rs.any fun r => r.id = x.1) state rs = deltas l state rs := by
  refine congrArg List.sum (List.map_congr_left fun r hr => ?_)
  unfold delta
  rw [get_filter_ids hr]

/-- What a tick makes of the open bucket. -/
theorem ticked_bucket (hp : s.pending = .empty) (h : Ticked rs s t) :
    ∃ b : Bucket,
      b.outputTokens = s.opened.outputTokens + deltas s.previous .output rs ∧
      b.thinkingTokens = s.opened.thinkingTokens + deltas s.previous .thinking rs ∧
      s.opened.promptTokens ≤ b.promptTokens ∧
      b.parts = s.opened.parts ++ rs.filterMap s.part ∧
      ((t.closed = s.closed ∧ t.opened = b) ∨
        ∃ closedAt, t.closed = s.closed ++ [(closedAt, b)] ∧ t.opened = .empty) := by
  obtain ⟨now, interval, rfl | ⟨rfl, rfl⟩⟩ := h
  · obtain ⟨b, h1, h2, h3, h4, h5⟩ := accumulate_bucket (s := { s.note rs with
      lastSeenAt := now
      previous := (s.note rs).previous.filter fun x => rs.any fun r => r.id = x.1 })
      (some rs) now interval hp
    refine ⟨b, h1.trans ?_, h2.trans ?_, h3, h4, h5⟩
    · exact congrArg (_ + ·) (deltas_filter_ids _ _ _)
    · exact congrArg (_ + ·) (deltas_filter_ids _ _ _)
  · obtain ⟨b, h1, h2, h3, h4, h5⟩ := accumulate_bucket
      (s := { s.note [] with previous := [] }) none now interval hp
    exact ⟨b, h1, h2, h3, h4, h5⟩

/-- A tick folds the records into the series and notes what it observes. -/
theorem ticked_folded (hp : s.pending = .empty) (h : Ticked rs s t) : Folded (s.note rs) rs t := by
  obtain ⟨now, interval, rfl | ⟨rfl, rfl⟩⟩ := h
  · have hfold := accumulate_folded (s := { s.note rs with
      lastSeenAt := now
      previous := (s.note rs).previous.filter fun x => rs.any fun r => r.id = x.1 })
      rs now interval hp
    obtain ⟨h1, h2, h3, h4, h5, h6, h7⟩ := hfold
    refine ⟨?_, h2, h3, h4, h5, h6, h7⟩
    refine h1.trans ?_
    simp only [gathered, deltas_filter_ids]
    rfl
  · have hsame := (open_same (s := { s.note [] with previous := [] }) hp).trans
      (accumulate_same (s := { s.note [] with previous := [] }) none now interval)
    exact ⟨hsame.tokens, hsame.parts, hsame.previous, hsame.pending.trans hp, hsame.episodes,
      hsame.observed, _, rfl, rfl, hsame.promptTokens, hsame.countedPrompt⟩

/-! ## The end hook -/

/-- A series after the end hook of a record of its unit. -/
structure Finished (s : Series) (r : Record) (t : Series) : Prop where
  tokens : t.tokens = s.tokens + (s.part r).elim 0 Part.tokens
  parts : t.parts = s.parts ++ (s.part r).toList
  previous : t.previous = Assoc.erase s.previous r.id
  pending : t.pending = .empty
  episodes : t.episodes = s.episodes.map (Episode.extend r)
  observed : t.observed = observe s.observed r
  promptTokens : t.promptTokens = s.promptTokens + if r.measured then r.ppTokens else 0
  countedPrompt : t.countedPrompt = s.countedPrompt

theorem flush_tokens (s : Series) :
    s.flushPending.tokens = s.tokens + (s.pending.output + s.pending.thinking) := by
  simp only [tokens, flushPending, Bucket.tokens]
  omega

theorem flush_promptTokens (s : Series) :
    s.flushPending.promptTokens = s.promptTokens + s.pending.promptTokens := by
  simp only [promptTokens, flushPending]
  omega

theorem captured_spec (r : Record) (hp : s.pending = .empty) :
    (s.captured r).output + (s.captured r).thinking = (s.part r).elim 0 Part.tokens ∧
      (s.captured r).promptTokens = if r.measured then r.ppTokens else 0 := by
  rw [← part_tokens]
  unfold captured delta
  rw [hp]
  cases Assoc.get s.previous r.id with
  | none => cases r.measured <;> simp [Pending.prompt, Pending.empty]
  | some x =>
    cases hs : r.state <;> cases r.measured <;>
      simp [Pending.capture, Pending.prompt, Pending.empty]

theorem finish_spec (r : Record) (hp : s.pending = .empty) :
    Finished s r ((s.noteEnd r).finish r) := by
  have hflush : SameTotals (s.noteEnd r) (s.noteEnd r).flushPending := flush_same hp
  obtain ⟨htokens, hprompt⟩ := captured_spec (s := (s.noteEnd r).flushPending) r
    (hflush.pending.trans hp)
  refine ⟨?_, ?_, rfl, rfl, rfl, rfl, ?_, rfl⟩
  · refine (flush_tokens _).trans ?_
    rw [htokens]
    exact congrArg (· + _) hflush.tokens
  · exact (List.append_assoc ..).symm
  · refine (flush_promptTokens _).trans ?_
    rw [hprompt]
    exact congrArg (· + _) hflush.promptTokens

/-- What the end hook makes of the open bucket. -/
theorem finish_bucket (r : Record) (hp : s.pending = .empty) :
    ∃ c : Pending, c.output + c.thinking = (s.part r).elim 0 Part.tokens ∧
      ((s.noteEnd r).finish r).opened.outputTokens = s.opened.outputTokens + c.output ∧
      ((s.noteEnd r).finish r).opened.thinkingTokens = s.opened.thinkingTokens + c.thinking ∧
      s.opened.promptTokens ≤ ((s.noteEnd r).finish r).opened.promptTokens ∧
      ((s.noteEnd r).finish r).opened.parts = s.opened.parts ++ (s.part r).toList ∧
      ((s.noteEnd r).finish r).closed = s.closed := by
  have hflush : SameTotals (s.noteEnd r) (s.noteEnd r).flushPending := flush_same hp
  obtain ⟨htokens, -⟩ := captured_spec (s := (s.noteEnd r).flushPending) r (hflush.pending.trans hp)
  have hopened : s.opened.outputTokens + s.pending.output = s.opened.outputTokens ∧
      s.opened.thinkingTokens + s.pending.thinking = s.opened.thinkingTokens := by
    simp [hp, Pending.empty]
  refine ⟨(s.noteEnd r).flushPending.captured r, htokens, ?_, ?_, ?_, rfl, rfl⟩
  · exact congrArg (· + _) hopened.1
  · exact congrArg (· + _) hopened.2
  · exact (Nat.le_add_right _ _).trans (Nat.le_add_right _ _)

end Series

namespace History

/-! ## Ticks of the collector -/

variable {h : History} {active : List Record}

theorem mem_records {r : Record} {unit : String} :
    r ∈ records active unit ↔ r ∈ active ∧ r.paused = false ∧ r.unit = unit := by
  simp [records]

theorem mem_units {unit : String} {admitted : List String} :
    unit ∈ units active admitted ↔
      ((∃ r ∈ active, r.paused = false ∧ r.unit = unit) ∨ unit ∈ admitted) ∧ unit ≠ "" := by
  simp [units, List.mem_eraseDups, and_assoc, or_and_right]

theorem evict_sublist (n : ℕ) (l : List (String × Series)) : (evict n l).Sublist l := by
  induction n generalizing l with
  | zero => exact List.Sublist.refl l
  | succ n ih =>
    unfold evict
    split
    · exact (ih _).trans List.filter_sublist
    · exact List.Sublist.refl l

theorem retire_sublist (now : ℚ) (h : History) : (h.retire now).series.Sublist h.series :=
  (evict_sublist _ _).trans List.filter_sublist

/-- A series after a tick: of a unit that was there, or a new one. -/
theorem mem_tick {now : ℚ} {admitted : List String} {interval : ℕ} {x : String × Series}
    (hnamed : ∀ y ∈ h.series, y.1 ≠ "")
    (hx : x ∈ (h.tick active now admitted interval).series) :
    ∃ s, ((x.1, s) ∈ h.series ∨ s = Series.new now ∧ Assoc.get h.series x.1 = none) ∧
      Series.Ticked (records active x.1) s x.2 := by
  obtain ⟨y, hy, rfl⟩ := List.mem_map.mp ((retire_sublist _ _).subset hx)
  have hy : ((y.1, y.2) ∈ h.series ∨ y.2 = Series.new now ∧ Assoc.get h.series y.1 = none) ∧
      y.1 ≠ "" := by
    obtain hy | hy := List.mem_append.mp hy
    · exact ⟨Or.inl hy, hnamed y hy⟩
    · obtain ⟨key, hkey, rfl⟩ := List.mem_map.mp hy
      obtain ⟨hkey, hnone⟩ := List.mem_filter.mp hkey
      exact ⟨Or.inr ⟨rfl, Option.isNone_iff_eq_none.mp hnone⟩, (mem_units.mp hkey).2⟩
  refine ⟨y.2, hy.1, now, interval, ?_⟩
  split
  case isTrue => exact Or.inl rfl
  case isFalse hkeys =>
    refine Or.inr ⟨List.eq_nil_iff_forall_not_mem.mpr fun r hr => hkeys ?_, rfl⟩
    obtain ⟨hr, hpaused, hunit⟩ := mem_records.mp hr
    exact mem_units.mpr ⟨Or.inl ⟨r, hr, hpaused, hunit⟩, hy.2⟩

theorem tick_keys (active : List Record) (now : ℚ) (admitted : List String) (interval : ℕ)
    (hnamed : ∀ y ∈ h.series, y.1 ≠ "") (hnodup : (h.series.map Prod.fst).Nodup) :
    (∀ y ∈ (h.tick active now admitted interval).series, y.1 ≠ "") ∧
      ((h.tick active now admitted interval).series.map Prod.fst).Nodup := by
  constructor
  · intro y hy
    obtain ⟨z, hz, rfl⟩ := List.mem_map.mp ((retire_sublist _ _).subset hy)
    obtain hz | hz := List.mem_append.mp hz
    · exact hnamed z hz
    · obtain ⟨key, hkey, rfl⟩ := List.mem_map.mp hz
      exact (mem_units.mp (List.mem_filter.mp hkey).1).2
  · refine ((retire_sublist _ _).map Prod.fst).nodup ?_
    rw [List.map_map, List.map_append, List.map_map]
    refine List.nodup_append.mpr ⟨hnodup, ?_, ?_⟩
    · have hkeys : (units active admitted).Nodup := Assoc.nodup_eraseDups _
      rw [show (Prod.fst ∘ fun x : String × Series => _) ∘ (fun key => (key, Series.new now)) = id
        from rfl, List.map_id]
      exact hkeys.filter _
    · intro a ha b hb hab
      obtain ⟨x, hx, rfl⟩ := List.mem_map.mp ha
      obtain ⟨key, hkey, rfl⟩ := List.mem_map.mp hb
      obtain ⟨s, hs⟩ := Assoc.get_isSome_of_mem hx
      have hnone := (List.mem_filter.mp hkey).2
      rw [show key = x.1 from hab.symm, hs] at hnone
      cases hnone

/-! ## The end hook of the collector -/

/-- The hook reads the totals of the record. -/
def Hooked (h : History) (r : Record) (s : Series) : Prop :=
  Assoc.get h.series r.unit = some s ∧ r.unit ≠ "" ∧ r.paused = false

theorem end_series (h : History) (r : Record) :
    ((∀ s, ¬ Hooked h r s) ∧ (h.end r).series = h.series) ∨
      ∃ s, Hooked h r s ∧
        (h.end r).series = Assoc.set h.series r.unit ((s.noteEnd r).finish r) := by
  unfold «end»
  split
  case isTrue hunit => exact Or.inl ⟨fun s hs => hs.2.1 hunit, rfl⟩
  case isFalse hunit =>
    dsimp only
    split
    case h_1 s hs =>
      split
      case isTrue hpaused =>
        refine Or.inl ⟨fun s hs => ?_, rfl⟩
        rw [hs.2.2] at hpaused
        cases hpaused
      case isFalse hpaused =>
        exact Or.inr ⟨s, ⟨hs, hunit, Bool.eq_false_iff.mpr hpaused⟩, rfl⟩
    case h_2 hnone =>
      refine Or.inl ⟨fun s hs => ?_, rfl⟩
      rw [hs.1] at hnone
      cases hnone

theorem mem_leave {rid : ℕ} {x : String × Series} :
    x ∈ (h.leave rid).series ↔ ∃ s, (x.1, s) ∈ h.series ∧
      x.2 = { s with episodes := Series.lapse (fun i => i = rid) s.episodes } := by
  constructor
  · intro hx
    obtain ⟨y, hy, rfl⟩ := List.mem_map.mp hx
    exact ⟨y.2, hy, rfl⟩
  · rintro ⟨s, hs, hx⟩
    exact List.mem_map.mpr ⟨(x.1, s), hs, by rw [← hx]⟩

end History

/-! ## Records and units -/

/-- Records and units can be told apart. -/
structure Wf (s : State) : Prop where
  ids : (s.active.map Record.id).Nodup
  rids : (s.active.map Record.rid).Nodup
  lt : ∀ r ∈ s.active, r.rid < s.next
  keys : (s.history.series.map Prod.fst).Nodup
  named : ∀ x ∈ s.history.series, x.1 ≠ ""

theorem Wf.eq_of_id {s : State} (h : Wf s) {p q : Record} (hp : p ∈ s.active) (hq : q ∈ s.active)
    (hid : p.id = q.id) : p = q := List.inj_on_of_nodup_map h.ids hp hq hid

theorem Wf.eq_of_rid {s : State} (h : Wf s) {p q : Record} (hp : p ∈ s.active)
    (hq : q ∈ s.active) (hrid : p.rid = q.rid) : p = q :=
  List.inj_on_of_nodup_map h.rids hp hq hrid

theorem find_spec {s : State} {rid : ℕ} {r : Record} (h : s.find rid = some r) :
    r ∈ s.active ∧ r.rid = rid :=
  ⟨List.mem_of_find?_eq_some h, of_decide_eq_true (List.find?_some h :)⟩

theorem Wf.find_eq {s : State} (h : Wf s) {r : Record} (hr : r ∈ s.active) :
    s.find r.rid = some r := by
  cases hf : s.find r.rid with
  | none => exact absurd (decide_eq_true rfl) (List.find?_eq_none.mp hf r hr)
  | some q =>
    obtain ⟨hq, hrid⟩ := find_spec hf
    rw [h.eq_of_rid hq hr hrid]

/-- What a write may change. -/
structure Written (q r : Record) : Prop where
  rid : r.rid = q.rid
  id : r.id = q.id
  totalTokens : q.totalTokens ≤ r.totalTokens
  measured : q.measured → r.measured ∧ r.ppTokens = q.ppTokens
  unit : r.unit = q.unit ∨ q.measured = false

theorem Written.refl (r : Record) : Written r r :=
  ⟨rfl, rfl, le_rfl, fun h => ⟨h, rfl⟩, Or.inl rfl⟩

/-- A call of the manager that is no call of the collector writes one record. -/
def Write (s t : State) : Prop :=
  ∃ q ∈ s.active, ∃ r, Written q r ∧ t = s.write r

/-- What a step is to the collector. -/
inductive Call (s : State) : Label → State → Prop where
  | write {l : Label} {t : State} (h : Write s t) : Call s l t
  | skip {l : Label} : Call s l s
  | start {id : ℕ} {unit : String} {enabled : Bool} {live : List (String × ℕ)}
      (h : ∀ r ∈ s.active, r.id ≠ id) :
      Call s (.start id unit enabled)
        { active := s.active ++ [⟨s.next, id, unit, false, false, false, 0, 0, 0⟩]
          next := s.next + 1
          history := { s.history with live } }
  | end {r : Record} {enabled : Bool} (h : r ∈ s.active) :
      Call s (.end r.rid enabled)
        { s with
          active := s.active.filter fun x => x.rid ≠ r.rid
          history := (if enabled then s.history.end r else s.history).leave r.rid }
  | tick {now : ℚ} {admitted : List String} {interval : ℕ} :
      Call s (.tick now admitted interval true)
        { s with history := s.history.tick s.active now admitted interval }

theorem write_call {s : State} {l : Label} {q r : Record} (hq : q ∈ s.active) (hw : Written q r) :
    Call s l (s.write r) := .write ⟨q, hq, r, hw, rfl⟩

theorem start_series (h : History) (unit : String) :
    ∃ live, h.start unit = { h with live } := by
  unfold History.start
  split
  · exact ⟨h.live, rfl⟩
  · exact ⟨_, rfl⟩

theorem step_call {s t : State} {l : Label} (h : step s l = some t) : Call s l t := by
  cases l with
  | start id unit enabled =>
    obtain ⟨hid, h⟩ := Option.ite_none_left_eq_some.mp h
    cases h
    have hfresh : ∀ r ∈ s.active, r.id ≠ id := fun r hr heq =>
      hid (List.any_eq_true.mpr ⟨r, hr, decide_eq_true heq⟩)
    cases enabled with
    | false => exact .start hfresh
    | true =>
      obtain ⟨live, hlive⟩ := start_series s.history unit
      rw [if_pos rfl, hlive]
      exact .start hfresh
  | emit rid thinking output =>
    obtain ⟨r, hfind, hs⟩ := Option.bind_eq_some_iff.mp h
    cases hs
    obtain ⟨hr, rfl⟩ := find_spec hfind
    refine write_call hr ⟨rfl, rfl, ?_, fun hm => ⟨hm, rfl⟩, Or.inl rfl⟩
    dsimp only
    omega
  | drain rid thinking output | pause rid =>
    obtain ⟨r, hfind, hs⟩ := Option.bind_eq_some_iff.mp h
    cases hs
    obtain ⟨hr, rfl⟩ := find_spec hfind
    exact write_call hr ⟨rfl, rfl, le_rfl, fun hm => ⟨hm, rfl⟩, Or.inl rfl⟩
  | measure rid tokens seconds =>
    obtain ⟨r, hfind, hs⟩ := Option.bind_eq_some_iff.mp h
    obtain ⟨hr, rfl⟩ := find_spec hfind
    split at hs
    case isTrue =>
      cases hs
      exact .skip
    case isFalse hpositive =>
      obtain ⟨hfinal, hs⟩ := Option.ite_none_left_eq_some.mp hs
      cases hs
      refine write_call hr ⟨rfl, rfl, le_rfl, fun hm => ?_, Or.inl rfl⟩
      have hsame : r.ppTokens = tokens ∧ r.ppTime = seconds := by
        by_contra hne
        exact hfinal ⟨hm, not_and_or.mp hne⟩
      obtain ⟨rfl, rfl⟩ := hsame
      exact ⟨hm, rfl⟩
  | resume rid unit =>
    obtain ⟨r, hfind, hs⟩ := Option.bind_eq_some_iff.mp h
    obtain ⟨hr, rfl⟩ := find_spec hfind
    obtain ⟨hunit, rfl⟩ := Transition.guard_some hs
    exact write_call hr ⟨rfl, rfl, le_rfl, fun hm => ⟨hm, rfl⟩, hunit.imp_right And.right⟩
  | «end» rid enabled =>
    obtain ⟨r, hfind, hs⟩ := Option.bind_eq_some_iff.mp h
    cases hs
    obtain ⟨hr, rfl⟩ := find_spec hfind
    exact .end hr
  | tick now admitted interval enabled =>
    cases h
    cases enabled with
    | false => exact .skip
    | true => exact .tick

theorem mem_write {s : State} {q r x : Record} (hw : Written q r)
    (hx : x ∈ (s.write r).active) : ∃ y ∈ s.active, (x = r ∧ y.rid = q.rid) ∨ x = y := by
  obtain ⟨y, hy, rfl⟩ := List.mem_map.mp hx
  refine ⟨y, hy, ?_⟩
  split
  case isTrue h => exact Or.inl ⟨rfl, h.trans hw.rid⟩
  case isFalse => exact Or.inr rfl

/-- Every record after a write is one of before, written. -/
theorem Write.written {s t : State} (h : Write s t) :
    ∀ x ∈ t.active, ∃ y ∈ s.active, Written y x := by
  obtain ⟨q, hq, r, hw, rfl⟩ := h
  intro x hx
  obtain ⟨y, hy, ⟨rfl, hrid⟩ | rfl⟩ := mem_write hw hx
  · exact ⟨q, hq, hw⟩
  · exact ⟨x, hy, rfl, rfl, le_rfl, fun hm => ⟨hm, rfl⟩, Or.inl rfl⟩

/-- Every record of before is there, written. -/
theorem Write.writes {s t : State} (hwf : Wf s) (h : Write s t) :
    ∀ y ∈ s.active, ∃ x ∈ t.active, Written y x := by
  obtain ⟨q, hq, r, hw, rfl⟩ := h
  intro y hy
  refine ⟨_, List.mem_map_of_mem hy, ?_⟩
  split
  case isTrue hrid =>
    obtain rfl := hwf.eq_of_rid hy hq (hrid.trans hw.rid)
    exact hw
  case isFalse => exact Written.refl y

theorem step_wf {s t : State} {l : Label} (hwf : Wf s) (h : step s l = some t) : Wf t := by
  cases step_call h with
  | write hw =>
    obtain ⟨q, hq, r, hr, rfl⟩ := hw
    have hsame : ∀ {α : Type} (f : Record → α), f r = f q →
        (s.write r).active.map f = s.active.map f := by
      intro α f hf
      unfold State.write
      rw [List.map_map]
      refine List.map_congr_left fun x hx => ?_
      dsimp only [Function.comp]
      split
      case isTrue hx' => rw [hf, hwf.eq_of_rid hx hq (hx'.trans hr.rid)]
      case isFalse => rfl
    refine ⟨?_, ?_, fun x hx => ?_, hwf.keys, hwf.named⟩
    · rw [hsame Record.id hr.id]
      exact hwf.ids
    · rw [hsame Record.rid hr.rid]
      exact hwf.rids
    · obtain ⟨y, hy, hyx⟩ := Write.written ⟨q, hq, r, hr, rfl⟩ x hx
      rw [hyx.rid]
      exact hwf.lt y hy
  | skip => exact hwf
  | start hid =>
    refine ⟨?_, ?_, fun x hx => ?_, hwf.keys, hwf.named⟩
    · rw [List.map_append]
      refine List.nodup_append.mpr ⟨hwf.ids, List.nodup_singleton _, fun a ha b hb hab => ?_⟩
      obtain ⟨r, hr, rfl⟩ := List.mem_map.mp ha
      exact hid r hr (hab.trans (List.mem_singleton.mp hb))
    · rw [List.map_append]
      refine List.nodup_append.mpr ⟨hwf.rids, List.nodup_singleton _, fun a ha b hb hab => ?_⟩
      obtain ⟨r, hr, rfl⟩ := List.mem_map.mp ha
      exact (hwf.lt r hr).ne (hab.trans (List.mem_singleton.mp hb))
    · obtain hx | hx := List.mem_append.mp hx
      · exact Nat.lt_succ_of_lt (hwf.lt x hx)
      · obtain rfl := List.mem_singleton.mp hx
        exact Nat.lt_succ_self _
  | @«end» r enabled hr =>
    have hkeys : (((if enabled then s.history.end r else s.history).leave r.rid).series.map
        Prod.fst).Nodup ∧
        ∀ x ∈ ((if enabled then s.history.end r else s.history).leave r.rid).series, x.1 ≠ "" := by
      have hend : ∀ g : History, (g.series.map Prod.fst).Nodup → (∀ x ∈ g.series, x.1 ≠ "") →
          ((g.leave r.rid).series.map Prod.fst).Nodup ∧
            ∀ x ∈ (g.leave r.rid).series, x.1 ≠ "" := by
        intro g hnodup hnamed
        refine ⟨?_, fun x hx => ?_⟩
        · unfold History.leave
          rw [List.map_map]
          exact hnodup
        · obtain ⟨y, hy, -⟩ := History.mem_leave.mp hx
          exact hnamed (x.1, y) hy
      cases enabled with
      | false => exact hend _ hwf.keys hwf.named
      | true =>
        rw [if_pos rfl]
        refine hend _ ?_ ?_
        · obtain ⟨-, heq⟩ | ⟨u, -, heq⟩ := History.end_series s.history r
          · exact heq ▸ hwf.keys
          · rw [heq]
            exact Assoc.nodup_keys_set hwf.keys
        · obtain ⟨-, heq⟩ | ⟨u, hu, heq⟩ := History.end_series s.history r
          · exact heq ▸ hwf.named
          · rw [heq]
            intro x hx
            obtain rfl | hx := Assoc.mem_set hx
            · exact hu.2.1
            · exact hwf.named x hx
    refine ⟨?_, ?_, fun x hx => hwf.lt x (List.mem_filter.mp hx).1, hkeys.1, hkeys.2⟩
    · exact (List.filter_sublist.map _).nodup hwf.ids
    · exact (List.filter_sublist.map _).nodup hwf.rids
  | @tick now admitted interval =>
    have hkeys := History.tick_keys s.active now admitted interval hwf.named hwf.keys
    exact ⟨hwf.ids, hwf.rids, hwf.lt, hkeys.2, hkeys.1⟩

theorem init_wf : Wf init :=
  ⟨List.nodup_nil, List.nodup_nil, fun _ h => absurd h List.not_mem_nil, List.nodup_nil,
    fun _ h => absurd h List.not_mem_nil⟩

end SparkDeck.LiveHistory
