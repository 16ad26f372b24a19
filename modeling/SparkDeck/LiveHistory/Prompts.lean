import SparkDeck.LiveHistory.Steps

/-!
# Measured prompts

Every measurement is to be counted once: by the tick that sees it first, or by the end hook of its
request. The end hook counts it whether or not a tick has, and a tick takes a measurement for
counted if the table has as many tokens under the identity of its record, which a request that has
ended may have left there.

* `clean` is the condition on a step: a request ends before a tick has observed its measurement,
  and a measurement that a tick observes is larger than what is left under its record's identity.
* `prompts_counted_once`: in a run of clean steps the prompt tokens of a unit's buckets are those of
  the requests whose measurement was observed, each of them once.
* `prompt_twice_or_dropped`: the two ways in which it fails.
-/

namespace SparkDeck.LiveHistory

open Transition

namespace Series

/-- A tick or the end hook has observed the measurement of the request. -/
def knows (x : Series) (rid : ℕ) : Bool := x.observed.any fun o => o.1 = rid

end Series

/-- The condition on a step. -/
def cleanPrompts (s : State) : Label → Bool
  | .end rid true =>
    (s.find rid).all fun r =>
      r.paused || !r.measured || (Assoc.get s.history.series r.unit).all fun x => !x.knows rid
  | .tick _ _ _ true =>
    s.active.all fun r =>
      r.paused || !r.measured || (Assoc.get s.history.series r.unit).all fun x =>
        x.knows r.rid || (Assoc.get x.countedPrompt r.id).all (· < r.ppTokens)
  | _ => true

namespace Series

theorem knows_iff {x : Series} {rid : ℕ} : x.knows rid ↔ ∃ o ∈ x.observed, o.1 = rid := by
  simp [knows]

/-! ## Observing -/

variable {obs : List (ℕ × ℕ)}

theorem mem_observe {r : Record} {o : ℕ × ℕ} :
    o ∈ observe obs r ↔
      o ∈ obs ∨ (r.measured ∧ (∀ o ∈ obs, o.1 ≠ r.rid) ∧ o = (r.rid, r.ppTokens)) := by
  unfold observe
  split
  case isTrue h =>
    obtain ⟨hm, hall⟩ := Bool.and_eq_true_iff.mp h
    have hnew : ∀ o ∈ obs, o.1 ≠ r.rid := fun o ho =>
      of_decide_eq_true (List.all_eq_true.mp hall o ho)
    rw [List.mem_append, List.mem_singleton]
    exact or_congr_right ⟨fun ho => ⟨hm, hnew, ho⟩, fun ho => ho.2.2⟩
  case isFalse h =>
    refine ⟨Or.inl, fun ho => ho.elim id fun ho => absurd ?_ h⟩
    exact Bool.and_eq_true_iff.mpr
      ⟨ho.1, List.all_eq_true.mpr fun o hmem => decide_eq_true (ho.2.1 o hmem)⟩

theorem nodup_observe (h : (obs.map Prod.fst).Nodup) (r : Record) :
    ((observe obs r).map Prod.fst).Nodup := by
  unfold observe
  split
  case isTrue hnew =>
    rw [List.map_append]
    refine List.nodup_append.mpr ⟨h, List.nodup_singleton _, fun a ha b hb hab => ?_⟩
    obtain ⟨o, ho, rfl⟩ := List.mem_map.mp ha
    have hne := List.all_eq_true.mp (Bool.and_eq_true_iff.mp hnew).2 o ho
    exact of_decide_eq_true hne (hab.trans (List.mem_singleton.mp hb))
  case isFalse => exact h

/-- What is observed, and what the table says of the records that are there. -/
def Counted (active : List Record) (x : Series) (obs : List (ℕ × ℕ)) : Prop :=
  ∀ r ∈ active, ∀ o ∈ obs, o.1 = r.rid → r.measured ∧ o.2 = r.ppTokens ∧
    ∃ c, Assoc.get x.countedPrompt r.id = some c ∧ r.ppTokens ≤ c

/-- Under the identity of a measurement that is new is less than it. -/
def Fresh (x : Series) (obs : List (ℕ × ℕ)) (r : Record) : Prop :=
  r.measured → (∀ o ∈ obs, o.1 ≠ r.rid) →
    ∀ c, Assoc.get x.countedPrompt r.id = some c → c < r.ppTokens

section Folding

variable {active : List Record}

/-- One measurement: it is counted if it is new. -/
theorem countPrompt_observe {x : Series} {r : Record} (hr : r ∈ active)
    (hids : ∀ q ∈ active, q.id = r.id → q = r) (hrids : ∀ q ∈ active, q.rid = r.rid → q = r)
    (hc : Counted active x obs) (hf : Fresh x obs r) :
    Counted active (x.countPrompt r) (observe obs r) ∧
      (x.countPrompt r).promptTokens + (obs.map Prod.snd).sum =
        x.promptTokens + ((observe obs r).map Prod.snd).sum ∧
      ∀ q ∈ active, q ≠ r →
        Assoc.get (x.countPrompt r).countedPrompt q.id = Assoc.get x.countedPrompt q.id := by
  cases hm : r.measured with
  | false =>
    have hcount : x.countPrompt r = x := by simp [countPrompt, hm]
    have hobs : observe obs r = obs := by simp [observe, hm]
    rw [hcount, hobs]
    exact ⟨hc, rfl, fun _ _ _ => rfl⟩
  | true =>
    by_cases hnew : ∀ o ∈ obs, o.1 ≠ r.rid
    · -- the measurement is new: the table has less
      have hless : (Assoc.get x.countedPrompt r.id).any (r.ppTokens ≤ ·) = false := by
        cases hg : Assoc.get x.countedPrompt r.id with
        | none => rfl
        | some c => exact decide_eq_false (Nat.not_le.mpr (hf hm hnew c hg))
      have hobs : observe obs r = obs ++ [(r.rid, r.ppTokens)] := by
        exact if_pos (Bool.and_eq_true_iff.mpr
          ⟨hm, List.all_eq_true.mpr fun o ho => decide_eq_true (hnew o ho)⟩)
      have hother : ∀ q ∈ active, q ≠ r →
          Assoc.get (x.countPrompt r).countedPrompt q.id = Assoc.get x.countedPrompt q.id := by
        intro q hq hne
        simp only [countPrompt, hm, hless, Bool.true_eq_false, decide_false, Bool.or_self,
          Bool.false_eq_true, if_false]
        exact Assoc.get_set_ne fun hid => hne (hids q hq hid)
      refine ⟨fun q hq o ho hoq => ?_, ?_, hother⟩
      · rw [hobs] at ho
        obtain ho | ho := List.mem_append.mp ho
        · have hqr : q ≠ r := fun h => hnew o ho (h ▸ hoq)
          rw [hother q hq hqr]
          exact hc q hq o ho hoq
        · obtain rfl := List.mem_singleton.mp ho
          obtain rfl := hrids q hq hoq.symm
          refine ⟨hm, rfl, q.ppTokens, ?_, le_rfl⟩
          simp only [countPrompt, hm, hless, Bool.true_eq_false, decide_false, Bool.or_self,
            Bool.false_eq_true, if_false]
          exact Assoc.get_set_self
      · rw [hobs]
        simp only [countPrompt, hm, hless, Bool.true_eq_false, decide_false, Bool.or_self,
          Bool.false_eq_true, if_false, promptTokens, List.map_append, List.map_cons, List.map_nil,
          List.sum_append, List.sum_cons, List.sum_nil]
        omega
    · -- it has been observed, and the table says so
      push Not at hnew
      obtain ⟨o, ho, horid⟩ := hnew
      obtain ⟨-, -, c, hg, hle⟩ := hc r hr o ho horid
      have hcount : x.countPrompt r = x := by simp [countPrompt, hg, hle]
      have hobs : observe obs r = obs := by
        refine if_neg fun h => ?_
        exact of_decide_eq_true (List.all_eq_true.mp (Bool.and_eq_true_iff.mp h).2 o ho) horid
      rw [hcount, hobs]
      exact ⟨hc, rfl, fun _ _ _ => rfl⟩

/-- The measurements of a sample. -/
theorem foldl_countPrompt_observe (hids : ∀ q ∈ active, ∀ r ∈ active, q.id = r.id → q = r)
    (hrids : ∀ q ∈ active, ∀ r ∈ active, q.rid = r.rid → q = r) :
    ∀ (rs : List Record) (x : Series) (obs : List (ℕ × ℕ)), (∀ r ∈ rs, r ∈ active) →
      Counted active x obs → (∀ r ∈ rs, Fresh x obs r) →
      Counted active (rs.foldl countPrompt x) (rs.foldl observe obs) ∧
        (rs.foldl countPrompt x).promptTokens + (obs.map Prod.snd).sum =
          x.promptTokens + ((rs.foldl observe obs).map Prod.snd).sum
  | [], _, _, _, hc, _ => ⟨hc, rfl⟩
  | r :: rs, x, obs, hsub, hc, hf => by
    have hr := hsub r List.mem_cons_self
    obtain ⟨hc', hsum, hother⟩ := countPrompt_observe hr (fun q hq => hids q hq r hr)
      (fun q hq => hrids q hq r hr) hc (hf r List.mem_cons_self)
    have hf' : ∀ q ∈ rs, Fresh (x.countPrompt r) (observe obs r) q := by
      intro q hq hm hnew c hg
      have hqr : q ≠ r := by
        rintro rfl
        by_cases hold : ∀ o ∈ obs, o.1 ≠ q.rid
        · exact hnew _ (mem_observe.mpr (Or.inr ⟨hm, hold, rfl⟩)) rfl
        · push Not at hold
          obtain ⟨o, ho, horid⟩ := hold
          exact hnew o (mem_observe.mpr (Or.inl ho)) horid
      rw [hother q (hsub q (List.mem_cons_of_mem r hq)) hqr] at hg
      exact hf q (List.mem_cons_of_mem r hq) hm
        (fun o ho => hnew o (mem_observe.mpr (Or.inl ho))) c hg
    obtain ⟨hall, htotal⟩ := foldl_countPrompt_observe hids hrids rs _ _
      (fun q hq => hsub q (List.mem_cons_of_mem r hq)) hc' hf'
    refine ⟨hall, ?_⟩
    rw [List.foldl_cons, List.foldl_cons]
    omega

end Folding

theorem foldl_observe_spec {next : ℕ} :
    ∀ (rs : List Record) (obs : List (ℕ × ℕ)), (∀ r ∈ rs, r.rid < next) →
      (obs.map Prod.fst).Nodup → (∀ o ∈ obs, o.1 < next) →
      ((rs.foldl observe obs).map Prod.fst).Nodup ∧ ∀ o ∈ rs.foldl observe obs, o.1 < next
  | [], _, _, hnodup, hlt => ⟨hnodup, hlt⟩
  | r :: rs, obs, hrs, hnodup, hlt => by
    refine foldl_observe_spec rs _ (fun q hq => hrs q (List.mem_cons_of_mem r hq))
      (nodup_observe hnodup r) fun o ho => ?_
    obtain ho | ⟨-, -, rfl⟩ := mem_observe.mp ho
    · exact hlt o ho
    · exact hrs r List.mem_cons_self

end Series

/-! ## The invariant -/

/-- The prompts of a series are those that were observed. -/
structure PromptsOk (active : List Record) (next : ℕ) (x : Series) : Prop where
  pending : x.pending = .empty
  total : x.promptTokens = (x.observed.map Prod.snd).sum
  nodup : (x.observed.map Prod.fst).Nodup
  lt : ∀ o ∈ x.observed, o.1 < next
  counted : Series.Counted active x x.observed

theorem new_promptsOk (active : List Record) (next : ℕ) (now : ℚ) :
    PromptsOk active next (Series.new now) :=
  ⟨rfl, rfl, List.nodup_nil, fun _ h => absurd h List.not_mem_nil,
    fun _ _ _ h => absurd h List.not_mem_nil⟩

/-- A request that a series knows stays measured while it is there. -/
theorem PromptsOk.mono {active active' : List Record} {next next' : ℕ} {x : Series}
    (h : PromptsOk active next x) (hle : next ≤ next')
    (hsub : ∀ r ∈ active', (∃ q ∈ active, Written q r) ∨ next ≤ r.rid) :
    PromptsOk active' next' x := by
  refine ⟨h.pending, h.total, h.nodup, fun o ho => (h.lt o ho).trans_le hle, ?_⟩
  intro r hr o ho horid
  obtain ⟨q, hq, hw⟩ | hge := hsub r hr
  · obtain ⟨hm, htokens, c, hc, hlec⟩ := h.counted q hq o ho (horid.trans hw.rid)
    obtain ⟨hm', heq⟩ := hw.measured hm
    exact ⟨hm', htokens.trans heq.symm, c, hw.id ▸ hc, heq ▸ hlec⟩
  · exact absurd (h.lt o ho) (by omega)

def Prompts (s : State) : Prop :=
  ∀ x ∈ s.history.series, PromptsOk s.active s.next x.2

theorem tick_promptsOk {s : State} (hwf : Wf s) {unit : String} {x y : Series}
    (hx : PromptsOk s.active s.next x)
    (hclean : ∀ r ∈ History.records s.active unit, Series.Fresh x x.observed r)
    (h : Series.Ticked (History.records s.active unit) x y) : PromptsOk s.active s.next y := by
  have hfold := Series.ticked_folded hx.pending h
  obtain ⟨u, hu1, hu2, hu3, hu4⟩ := hfold.prompts
  have hsub : ∀ r ∈ History.records s.active unit, r ∈ s.active := fun r hr =>
    (History.mem_records.mp hr).1
  have hcounted : Series.Counted s.active u x.observed := by
    intro r hr o ho hrid
    rw [hu2]
    exact hx.counted r hr o ho hrid
  have hfresh : ∀ r ∈ History.records s.active unit, Series.Fresh u x.observed r := by
    intro r hr
    unfold Series.Fresh
    rw [hu2]
    exact hclean r hr
  obtain ⟨hc, hsum⟩ := Series.foldl_countPrompt_observe
    (fun q hq r hr => hwf.eq_of_id hq hr) (fun q hq r hr => hwf.eq_of_rid hq hr) _ u x.observed hsub
    hcounted hfresh
  have hobs := Series.foldl_observe_spec (History.records s.active unit) x.observed
    (fun r hr => hwf.lt r (hsub r hr)) hx.nodup hx.lt
  have hobserved : y.observed = (History.records s.active unit).foldl Series.observe x.observed :=
    hfold.observed
  refine ⟨hfold.pending, ?_, hobserved ▸ hobs.1, hobserved ▸ hobs.2, ?_⟩
  · have htotal : u.promptTokens = (x.observed.map Prod.snd).sum := hu1.trans hx.total
    rw [hobserved, hu3]
    omega
  · rw [hobserved]
    intro r hr o ho hrid
    rw [hu4]
    exact hc r hr o ho hrid

/-- The end hook counts a measurement that is new. -/
theorem end_promptsOk {s : State} (hwf : Wf s) {r : Record} (hr : r ∈ s.active) {x : Series}
    (hx : PromptsOk s.active s.next x) (hclean : r.measured → ∀ o ∈ x.observed, o.1 ≠ r.rid) :
    PromptsOk (s.active.filter fun q => q.rid ≠ r.rid) s.next ((x.noteEnd r).finish r) := by
  have hend := Series.finish_spec r hx.pending
  refine ⟨hend.pending, ?_, ?_, fun o ho => ?_, fun q hq o ho hrid => ?_⟩
  · rw [hend.promptTokens, hend.observed, hx.total]
    cases hm : r.measured with
    | false => simp [Series.observe, hm]
    | true =>
      have hnew : x.observed.all (fun o => decide (o.1 ≠ r.rid)) :=
        List.all_eq_true.mpr fun o ho => decide_eq_true (hclean hm o ho)
      simp only [Series.observe, hm, hnew, Bool.and_self, if_true, List.map_append, List.map_cons,
        List.map_nil, List.sum_append, List.sum_cons, List.sum_nil, Nat.add_zero]
  · rw [hend.observed]
    exact Series.nodup_observe hx.nodup r
  · rw [hend.observed] at ho
    obtain ho | ⟨-, -, rfl⟩ := Series.mem_observe.mp ho
    · exact hx.lt o ho
    · exact hwf.lt r hr
  · obtain ⟨hq, hne⟩ := List.mem_filter.mp hq
    rw [hend.observed] at ho
    rw [hend.countedPrompt]
    obtain ho | ⟨-, -, rfl⟩ := Series.mem_observe.mp ho
    · exact hx.counted q hq o ho hrid
    · exact absurd hrid.symm (of_decide_eq_true hne)

theorem leave_prompts {active : List Record} {next : ℕ} {h : History}
    (hp : ∀ x ∈ h.series, PromptsOk active next x.2) (rid : ℕ) :
    ∀ x ∈ (h.leave rid).series, PromptsOk active next x.2 := by
  intro x hx
  obtain ⟨y, hy, heq⟩ := History.mem_leave.mp hx
  have hok := hp _ hy
  rw [heq]
  exact { hok with }

theorem step_prompts {s t : State} {l : Label} (hwf : Wf s) (hp : Prompts s)
    (hc : cleanPrompts s l) (h : step s l = some t) : Prompts t := by
  cases step_call h with
  | write hw =>
    have hwritten := hw.written
    obtain ⟨q, hq, r, hr, rfl⟩ := hw
    exact fun x hx => (hp x hx).mono le_rfl fun y hy => Or.inl (hwritten y hy)
  | skip => exact hp
  | start hid =>
    refine fun x hx => (hp x hx).mono (Nat.le_succ _) fun r hr => ?_
    obtain hr | hr := List.mem_append.mp hr
    · exact Or.inl ⟨r, hr, Written.refl r⟩
    · obtain rfl := List.mem_singleton.mp hr
      exact Or.inr le_rfl
  | @«end» r enabled hr =>
    have hgone : ∀ x : Series, PromptsOk s.active s.next x →
        PromptsOk (s.active.filter fun q => q.rid ≠ r.rid) s.next x := fun x hx =>
      hx.mono le_rfl fun q hq => Or.inl ⟨q, (List.mem_filter.mp hq).1, Written.refl q⟩
    cases enabled with
    | false => exact leave_prompts (fun x hx => hgone x.2 (hp x hx)) r.rid
    | true =>
      rw [if_pos rfl]
      refine leave_prompts (fun x hx => ?_) r.rid
      obtain ⟨-, heq⟩ | ⟨u, hu, heq⟩ := History.end_series s.history r
      · exact hgone x.2 (hp x (heq ▸ hx))
      · rw [heq] at hx
        obtain ⟨-, hxu⟩ | ⟨-, hx⟩ := (Assoc.mem_set_iff hwf.keys).mp hx
        · rw [hxu]
          refine end_promptsOk hwf hr (hp _ (Assoc.mem_of_get hu.1)) fun hm o ho hrid => ?_
          simp only [cleanPrompts, hwf.find_eq hr, hu.1, hu.2.2, hm, Option.all_some, Bool.false_or,
            Bool.not_true, Bool.not_eq_true'] at hc
          rw [Series.knows_iff.mpr ⟨o, ho, hrid⟩] at hc
          cases hc
        · exact hgone x.2 (hp x hx)
  | @tick now admitted interval =>
    intro x hx
    obtain ⟨y, hy, hticked⟩ := History.mem_tick hwf.named hx
    obtain hy | ⟨rfl, -⟩ := hy
    · refine tick_promptsOk hwf (hp _ hy) (fun r hr hm hnew c hg => ?_) hticked
      obtain ⟨hr, hpaused, hunit⟩ := History.mem_records.mp hr
      have hget : Assoc.get s.history.series r.unit = some y :=
        (Assoc.get_eq_some_iff hwf.keys).mpr (hunit ▸ hy)
      have hknows : y.knows r.rid = false := by
        rw [Bool.eq_false_iff]
        intro hk
        obtain ⟨o, ho, hrid⟩ := Series.knows_iff.mp hk
        exact hnew o ho hrid
      have hall := List.all_eq_true.mp hc r hr
      simp only [hpaused, hm, hget, hknows, hg, Option.all_some, Bool.false_or, Bool.not_true] at hall
      exact of_decide_eq_true hall
    · exact tick_promptsOk hwf (new_promptsOk _ _ now) (fun r hr _ _ c hg => by cases hg) hticked

/-- The prompt tokens of a unit's buckets are those of the requests whose measurement a tick or the
end hook has observed, each of them once. -/
theorem prompts_counted_once {s : State}
    (hs : Reach step (fun s l => cleanPrompts s l = true) init s) :
    ∀ unit x, (unit, x) ∈ s.history.series →
      x.promptTokens = (x.observed.map Prod.snd).sum ∧ (x.observed.map Prod.fst).Nodup ∧
      ∀ r ∈ s.active, ∀ o ∈ x.observed, o.1 = r.rid → r.measured = true ∧ o.2 = r.ppTokens := by
  have hi : Wf s ∧ Prompts s := by
    refine hs.invariant (P := fun s => Wf s ∧ Prompts s) ?_ ?_
    · exact ⟨init_wf, fun _ h => absurd h List.not_mem_nil⟩
    · exact fun _ _ _ ha hc hstep => ⟨step_wf ha.1 hstep, step_prompts ha.1 ha.2 hc hstep⟩
  intro unit x hx
  have hok := hi.2 _ hx
  refine ⟨hok.total, hok.nodup, fun r hr o ho hrid => ?_⟩
  obtain ⟨hm, htokens, -⟩ := hok.counted r hr o ho hrid
  exact ⟨hm, htokens⟩

/-- One request ends before the next tick, another one goes on. -/
def measuredRun : List Label :=
  [.start 7 "a" true, .start 8 "a" true, .tick 0 [] 5 true, .emit 0 0 1, .measure 0 100 2,
    .end 0 true, .emit 1 0 1, .measure 1 50 1, .tick 1 [] 5 true, .tick 2 [] 5 true]

theorem prompts_counted_once_run :
    ∃ s, Reach step (fun s l => cleanPrompts s l = true) init s ∧
      (∀ unit x, (unit, x) ∈ s.history.series →
        x.promptTokens = (x.observed.map Prod.snd).sum ∧ (x.observed.map Prod.fst).Nodup ∧
        ∀ r ∈ s.active, ∀ o ∈ x.observed, o.1 = r.rid → r.measured = true ∧ o.2 = r.ppTokens) ∧
      (s.history.series.map fun x => x.2.promptTokens) = [150] := by
  obtain ⟨s, hs, hp⟩ := reach_any (p := fun s : State =>
    s.history.series.map (fun x => x.2.promptTokens) == [150])
    (show (replay step (fun s l => cleanPrompts s l = true) init measuredRun).any _ = true by
      decide +kernel)
  exact ⟨s, hs, prompts_counted_once hs, beq_iff_eq.mp hp⟩

/-- A request is measured, observed by a tick, and ends. -/
def endedRun : List Label :=
  [.start 7 "a" true, .emit 0 0 1, .measure 0 100 2, .tick 0 [] 5 true, .end 0 true]

/-- A request is measured, observed, paused and cancelled; another one has its record's identity. -/
def reusedRun : List Label :=
  [.start 7 "a" true, .emit 0 0 1, .measure 0 100 2, .tick 0 [] 5 true, .pause 0, .end 0 true,
    .start 7 "a" true, .emit 1 0 1, .measure 1 80 2, .tick 1 [] 5 true]

/-- A prompt of 100 tokens counts as 200; of prompts of 100 and 80 tokens the second is dropped. -/
theorem prompt_twice_or_dropped :
    ((replay step Free init endedRun).map fun s => s.history.series.map fun x =>
      (x.2.promptTokens, x.2.observed)) = some [(200, [(0, 100)])] ∧
    ((replay step Free init reusedRun).map fun s => s.history.series.map fun x =>
      (x.2.promptTokens, x.2.observed)) = some [(100, [(0, 100), (1, 80)])] := by
  refine ⟨?_, ?_⟩ <;> decide +kernel

end SparkDeck.LiveHistory
