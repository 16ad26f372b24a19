import SparkDeck.Cluster.Failover
import SparkDeck.Lib.Transition

/-!
# Failover and ride-through duplicate nothing

`Sound` is what a cluster request owes its client and its engines, at any moment: the chunks of one
candidate at most, no second pass after one in which an engine can have received the prompt,
candidates in route order and none twice in a pass, client errors surfaced, and a response that ends
with `[DONE]` or as the serving candidate's stream ended.

`failover_sound`: it holds of every state of every run in which the calls are told apart (`Clean`).
`client_error_replayed` is a run in which they are not: the classifiers look for texts in an error
that can contain an engine's own words.

`At` is the invariant, phase by phase; there is one lemma for each function of the model, and
`inv_step` puts them together.
-/

namespace SparkDeck.Cluster.Inquiry

open Transition

variable {M : Type*}

/-- The client has been told about the refusal. -/
def Surfaced (s : Inquiry M) : Refusal → Prop
  | .failed r => s.phase = .raised r ∨ s.out = [clusterErrorEvent r.exn, .done]
  | .event i c => .chunk i c ∈ s.out

/-- What the client is given is in order. -/
structure Told (s : Inquiry M) : Prop where
  /-- Once a candidate is forwarded the client gets nothing else. -/
  single : ∀ i, s.serving = some i → ∀ x ∈ s.out, ∃ c, x = .chunk i c
  /-- Before, it gets no event of a candidate, but perhaps the error of one. -/
  silent : s.serving = none → ∀ i c, .chunk i c ∈ s.out → c.upstreamStreamError ≠ none
  surfaced : ∀ a, s.refusal = some a → s.Surfaced a
  /-- A response ends with `[DONE]`, or as the stream of the serving candidate ended. -/
  ends : ∀ r, s.phase = .ended r →
    r = none ∧ s.out.getLast? = some .done ∨ s.serving.isSome ∧ s.own = some r

/-- Nothing is duplicated and nothing is left open. -/
structure Sound (s : Inquiry M) : Prop extends Told s where
  /-- No engine can have received the prompt in a pass that is followed by another. -/
  replay : ∀ p ∈ s.rounds.dropLast, p.delivered = false
  /-- A pass tries its candidates in route order, each at most once. -/
  order : ∀ p ∈ s.rounds, p.tried <+: p.route.order ∧ p.tried.Nodup

/-- A call of a candidate fails with what its classifiers make of it: what the ride-through takes for
unsent has reached no engine, and a client error is not passed on to another candidate. -/
def CallClean (s : Inquiry M) (i : ℕ) (o : Outcome) (r : Raised) : Prop :=
  (o.delivered = true → rideThroughRetryable r = false) ∧
    (o.clientError = true → rideThroughRetryable r = false ∧
      (failoverRetryable r.exn = true → i + 1 = s.candidates.length ∧ s.routed = false))

instance (s : Inquiry M) (i : ℕ) (o : Outcome) (r : Raised) : Decidable (s.CallClean i o r) :=
  inferInstanceAs (Decidable (_ ∧ _))

/-- The calls are told apart, and closing a stream that is given up does not raise. -/
def Clean (s : Inquiry M) : Label M → Prop
  | .attempt a _ _ =>
    let o := proxyMember s.streaming a
    match s.phase with
    | .trying i => ∀ r ∈ o.raised, s.CallClean i o r
    | .redialing i =>
      ∀ r ∈ o.raised, o.clientError → failoverRetryable r.exn →
        i + 1 = s.candidates.length ∧ s.terminal = none
    | _ => True
  | .first _ close => close = none
  | _ => True

instance (s : Inquiry M) (e : Label M) : Decidable (s.Clean e) := by
  unfold Clean
  split
  case h_1 =>
    dsimp only
    split <;> infer_instance
  all_goals infer_instance

/-- Nothing has reached the client, and what the relay keeps for it is an error. -/
structure Quiet (s : Inquiry M) : Prop where
  out : s.out = []
  serving : s.serving = none
  terminal : ∀ j c, s.terminal = some (j, c) → c.upstreamStreamError ≠ none
  refusal : s.refusal = none

/-- Passes in order, in which no engine can have received the prompt. -/
def Spent (ps : List (Round M)) : Prop :=
  ∀ p ∈ ps, p.tried <+: p.route.order ∧ p.delivered = false

/-- The passes are in order, and all but the last without effect. -/
structure Books (ps : List (Round M)) : Prop where
  order : ∀ p ∈ ps, p.tried <+: p.route.order
  earlier : ∀ p ∈ ps.dropLast, p.delivered = false

/-- The current pass has tried its first `n` candidates. -/
def Sweep (s : Inquiry M) (n : ℕ) : Prop :=
  ∃ ps p, s.rounds = ps ++ [p] ∧ Spent ps ∧ p.route.order = s.candidates ∧
    p.tried = s.candidates.take n

/-- Unless the request is unsafe to replay, no engine can have received the prompt. -/
def Untouched (s : Inquiry M) : Prop :=
  s.unsafeToReplay = false → ∀ p ∈ s.rounds, p.delivered = false

/-- What holds at a phase. -/
def At (s : Inquiry M) : Prop :=
  match s.phase with
  | .starting | .pausing _ => s.Quiet ∧ Spent s.rounds
  | .trying i => s.Quiet ∧ s.Sweep (i + 1) ∧ i < s.candidates.length ∧ s.Untouched
  | .priming i | .redialing i => s.Quiet ∧ s.Sweep (i + 1) ∧ i < s.candidates.length
  | .committed i =>
    s.serving = some i ∧ (∀ x ∈ s.out, ∃ c, x = .chunk i c) ∧
      ∀ a, s.refusal = some a → ∃ c, a = .event i c ∧ .chunk i c ∈ s.out
  | .raised r => s.out = [] ∧ s.serving = none ∧ ∀ a, s.refusal = some a → a = .failed r
  | .replied => s.Quiet
  | .ended _ | .left => s.Told

structure Inv (s : Inquiry M) : Prop where
  books : Books s.rounds
  at_phase : s.At

variable {s : Inquiry M} {i n : ℕ} {r : Raised} {gone : Bool} {o : Outcome}

/-! ## The passes -/

theorem Spent.books {ps : List (Round M)} (h : Spent ps) : Books ps :=
  ⟨fun p hp => (h p hp).1, fun p hp => (h p (List.mem_of_mem_dropLast hp)).2⟩

theorem Sweep.books (h : s.Sweep n) : Books s.rounds := by
  obtain ⟨ps, p, hr, hps, hroute, htried⟩ := h
  refine ⟨fun q hq => ?_, fun q hq => ?_⟩
  · rw [hr, List.mem_append, List.mem_singleton] at hq
    rcases hq with hq | rfl
    · exact (hps q hq).1
    · rw [htried, hroute]
      exact List.take_prefix _ _
  · rw [hr, List.dropLast_concat] at hq
    exact (hps q hq).2

theorem Sweep.spent (h : s.Sweep n) (hu : ∀ p ∈ s.rounds, p.delivered = false) :
    Spent s.rounds := fun p hp => ⟨h.books.order p hp, hu p hp⟩

/-- The next candidate is tried. -/
theorem Sweep.note (h : s.Sweep i) (hi : i < s.candidates.length) (ph : Phase) :
    { s with phase := ph, rounds := s.note i }.Sweep (i + 1) := by
  obtain ⟨ps, p, hr, hps, hroute, htried⟩ := h
  refine ⟨ps, { p with tried := p.tried ++ [s.candidates[i]] }, ?_, hps, hroute, ?_⟩
  · simp [Inquiry.note, hr, List.getElem?_eq_getElem hi]
  · show p.tried ++ [s.candidates[i]] = s.candidates.take (i + 1)
    rw [htried, List.take_append_getElem hi]

theorem Untouched.note (h : s.Untouched) (ph : Phase) :
    { s with phase := ph, rounds := s.note i }.Untouched := by
  intro hu p hp
  simp only [Inquiry.note] at hp
  split at hp
  case h_1 q m hq hm =>
    rcases List.mem_append.mp hp with hp | hp
    · exact h hu p (List.mem_of_mem_dropLast hp)
    · rw [List.mem_singleton.mp hp]
      exact h hu q (List.mem_of_getLast? hq)
  case h_2 => exact h hu p hp

theorem Sweep.record (h : s.Sweep n) : (s.record o).Sweep n := by
  obtain ⟨ps, p, hr, hps, hroute, htried⟩ := h
  refine ⟨ps, { p with delivered := p.delivered || o.delivered }, ?_, hps, hroute, htried⟩
  simp [Inquiry.record, hr]

theorem record_undelivered (ho : o.delivered = false) : (s.record o).rounds = s.rounds := by
  simp only [record, ho, Bool.or_false]
  split
  case h_1 p hp => exact List.dropLast_append_getLast? p hp
  case h_2 => rfl

/-! ## The ride-through loop -/

theorem inv_surface (hb : Books s.rounds) (hq : s.out = [] ∧ s.serving = none)
    (hterm : ∀ j c, s.terminal = some (j, c) → c.upstreamStreamError ≠ none)
    (href : ∀ a, s.refusal = some a → a = .failed r ∧ rideThroughRetryable r = false)
    (hspent : s.unsafeToReplay = false → rideThroughRetryable r = true → Spent s.rounds) :
    (s.surface gone r).Inv := by
  dsimp only [surface]
  split
  case isTrue =>
    exact ⟨hb, hq.1, hq.2, fun a ha => (href a ha).1⟩
  case isFalse hgo =>
    simp only [not_or, Bool.not_eq_false, Bool.not_eq_true] at hgo
    obtain ⟨-, -, -, hride, hsafe⟩ := hgo
    have hnone : s.refusal = none := by
      by_contra hne
      obtain ⟨a, ha⟩ := Option.ne_none_iff_exists'.mp hne
      exact absurd (href a ha).2 (by simp [hride])
    exact ⟨hb, ⟨hq.1, hq.2, hterm, hnone⟩, hspent hsafe hride⟩

/-- With nothing to surface yet. -/
theorem inv_surface_quiet (hb : Books s.rounds) (hq : s.Quiet)
    (hspent : s.unsafeToReplay = false → rideThroughRetryable r = true → Spent s.rounds) :
    (s.surface gone r).Inv :=
  inv_surface hb ⟨hq.out, hq.serving⟩ hq.terminal (fun a ha => by simp [hq.refusal] at ha) hspent

theorem inv_visit (hq : s.Quiet) (hsw : s.Sweep i) (hi : i < s.candidates.length)
    (hu : s.Untouched) : (s.visit i gone).Inv := by
  unfold visit
  split
  · exact inv_surface_quiet hsw.books hq fun hs _ => hsw.spent (hu hs)
  · split
    · exact inv_surface_quiet hsw.books hq fun hs _ => hsw.spent (hu hs)
    · have hsw' := hsw.note hi (.trying i)
      exact ⟨hsw'.books, { hq with }, hsw', hi, hu.note _⟩

theorem inv_begin (hq : s.Quiet) (hsp : Spent s.rounds) (l : Lookup M) : (s.begin l gone).Inv := by
  unfold begin
  cases l with
  | missing | stopped | unroutable m => exact inv_surface_quiet hsp.books hq fun _ _ => hsp
  | found route =>
    dsimp only
    split
    · exact inv_surface_quiet hsp.books hq fun _ _ => hsp
    · case isFalse hne =>
      refine inv_visit { hq with } ?_
        (List.length_pos_of_ne_nil hne) ?_
      · exact ⟨s.rounds, ⟨route, [], false⟩, rfl, hsp, rfl, rfl⟩
      · intro _ p hp
        rcases List.mem_append.mp hp with hp | hp
        · exact (hsp p hp).2
        · rw [List.mem_singleton.mp hp]

/-- What a call of a candidate leaves to surface. -/
theorem record_refusal (hq : s.Quiet) {a : Refusal} (ha : (s.record o).refusal = some a) :
    ∃ r, o.raised = some r ∧ a = .failed r ∧ o.clientError := by
  simp only [record] at ha
  split at ha
  case h_1 r hr =>
    split at ha
    case isTrue hc => exact ⟨r, hr, (Option.some.inj ha).symm, hc⟩
    case isFalse => simp [hq.refusal] at ha
  case h_2 => simp [hq.refusal] at ha

theorem record_quiet (hq : s.Quiet) (hno : o.raised = none ∨ o.clientError = false) :
    (s.record o).Quiet := by
  refine { hq with refusal := ?_ }
  by_contra hne
  obtain ⟨a, ha⟩ := Option.ne_none_iff_exists'.mp hne
  obtain ⟨r, hr, -, hc⟩ := record_refusal hq ha
  rcases hno with hno | hno
  · simp [hno] at hr
  · simp [hno] at hc

/-- A request that can still be replayed has reached no engine. -/
theorem untouched_mark (hu : s.Untouched) (hc : s.CallClean i o r) :
    ((s.record o).mark r).Untouched := by
  intro hsafe p hp
  have hride : s.unsafeToReplay = false ∧ rideThroughRetryable r = true := by
    simpa [mark, record] using hsafe
  have hdel : o.delivered = false := by
    by_contra hd
    simp [hc.1 (by simpa using hd)] at hride
  have hrounds : ((s.record o).mark r).rounds = s.rounds := record_undelivered hdel
  exact hu hride.1 p (hrounds ▸ hp)

theorem inv_except (hq : s.out = [] ∧ s.serving = none)
    (hterm : ∀ j c, s.terminal = some (j, c) → c.upstreamStreamError ≠ none)
    (hsw : s.Sweep (i + 1)) (hi : i < s.candidates.length) (hu : s.Untouched)
    (href : ∀ a, s.refusal = some a → a = .failed r ∧ rideThroughRetryable r = false ∧
      (failoverRetryable r.exn = true → i + 1 = s.candidates.length ∧ s.routed = false)) :
    (s.except i gone r).Inv := by
  have hspent : s.unsafeToReplay = false → Spent s.rounds := fun hsafe => hsw.spent (hu hsafe)
  unfold except
  split
  case isTrue hrouted =>
    -- the source route's own error replaces this one
    refine inv_surface hsw.books hq hterm (fun a ha => ?_) fun hsafe _ => hspent hsafe
    have hnot := ((href a ha).2.2 hrouted.2).2
    exact absurd hrouted.1 (by simp [hnot])
  case isFalse hrouted =>
    split
    case isTrue =>
      exact inv_surface hsw.books hq hterm (fun a ha => ⟨(href a ha).1, (href a ha).2.1⟩)
        fun hsafe _ => hspent hsafe
    case isFalse hgo =>
      simp only [not_or, Bool.not_eq_false] at hgo
      obtain ⟨hmore, hretry⟩ := hgo
      have hnone : s.refusal = none := by
        by_contra hne
        obtain ⟨a, ha⟩ := Option.ne_none_iff_exists'.mp hne
        exact hmore ((href a ha).2.2 hretry).1
      exact inv_visit ⟨hq.1, hq.2, hterm, hnone⟩ hsw (lt_of_le_of_ne hi hmore) hu

theorem inv_serve (hq : s.Quiet) (hsw : s.Sweep (i + 1)) (hi : i < s.candidates.length) :
    (s.serve i).Inv := by
  unfold serve
  split
  · exact ⟨hsw.books,
      { hq with }, hsw, hi⟩
  · exact ⟨hsw.books, hq.out, hq.serving, hq.terminal, hq.refusal⟩

theorem inv_attempted (hq : s.Quiet) (hsw : s.Sweep (i + 1)) (hi : i < s.candidates.length)
    (hu : s.Untouched) (hc : ∀ r, o.raised = some r → s.CallClean i o r) :
    (s.attempted i o gone).Inv := by
  have hsw' : (s.record o).Sweep (i + 1) := hsw.record
  unfold attempted
  split
  case h_1 hr => exact inv_serve (record_quiet hq (.inl hr)) hsw' hi
  case h_2 r hr =>
    have hcall := hc r hr
    have href : ∀ a, (s.record o).refusal = some a → a = .failed r ∧ o.clientError :=
      fun a ha => by
        obtain ⟨r', hr', rfl, hce⟩ := record_refusal hq ha
        cases hr.symm.trans hr'
        exact ⟨rfl, hce⟩
    split
    case h_1 =>
      refine inv_surface hsw'.books ⟨hq.out, hq.serving⟩ hq.terminal
        (fun a ha => ⟨(href a ha).1, (hcall.2 (href a ha).2).1⟩) fun hsafe hride => ?_
      have hdel : o.delivered = false := by
        by_contra hd
        simp [hcall.1 (by simpa using hd)] at hride
      rw [record_undelivered hdel]
      exact hsw.spent (hu hsafe)
    case h_2 =>
      exact inv_except (s := (s.record o).mark r) ⟨hq.out, hq.serving⟩ hq.terminal hsw' hi
        (untouched_mark hu hcall) fun a ha => ⟨(href a ha).1, hcall.2 (href a ha).2⟩

/-! ## The relay -/

/-- The relay's last words. -/
theorem inv_conclude {last : Option Out} (hb : Books s.rounds) (hout : s.out = [])
    (hserving : s.serving = none)
    (hlast : ∀ j c, last = some (.chunk j c) → c.upstreamStreamError ≠ none)
    (href : ∀ a, s.refusal = some a → ∃ r, a = .failed r ∧ last = some (clusterErrorEvent r.exn)) :
    (s.conclude last).Inv := by
  have hmem : (s.conclude last).out = last.toList ++ [.done] := by simp [conclude, hout]
  refine ⟨hb, fun j hj => ?_, fun _ j c hc => ?_, fun a ha => ?_, fun r hr => ?_⟩
  · simp [conclude, hserving] at hj
  · rw [hmem] at hc
    simp only [List.mem_append, Option.mem_toList, List.mem_singleton, reduceCtorEq, or_false] at hc
    exact hlast j c hc
  · obtain ⟨r, rfl, hl⟩ := href a ha
    exact .inr (hmem.trans (by simp [hl]))
  · have hr' : none = r := by simpa [conclude] using hr
    exact .inl ⟨hr'.symm, by simp [hmem]⟩

theorem clusterErrorEvent_ne_chunk {e : Exn} {j : ℕ} {c : Chunk} :
    clusterErrorEvent e ≠ .chunk j c := by
  cases e <;> simp [clusterErrorEvent]

theorem inv_advance (hq : s.Quiet) (hsw : s.Sweep (i + 1)) : (s.advance i).Inv := by
  unfold advance
  split
  case isTrue hlt =>
    have hsw' := hsw.note hlt (.redialing (i + 1))
    exact ⟨hsw'.books, { hq with }, hsw', hlt⟩
  case isFalse =>
    refine inv_conclude hsw.books hq.out hq.serving (fun j c hj => ?_)
      fun a ha => by simp [hq.refusal] at ha
    split at hj
    case h_1 j' c' hterm =>
      obtain ⟨rfl, rfl⟩ : j' = j ∧ c' = c := by simpa using hj
      exact hq.terminal _ _ hterm
    case h_2 =>
      obtain ⟨e, -, he⟩ := Option.map_eq_some_iff.mp hj
      exact absurd he clusterErrorEvent_ne_chunk

theorem told_left (hout : s.out = []) (hserving : s.serving = none) (href : s.refusal = none) :
    { s with phase := .left }.Told :=
  ⟨fun i hi => by simp [hserving] at hi, fun _ i c hc => by simp [hout] at hc,
    fun a ha => by simp [href] at ha, fun r hr => by simp at hr⟩

/-- A failure of the relay's current candidate. What it has to surface is that failure. -/
theorem inv_fail (hq : s.out = [] ∧ s.serving = none)
    (hterm : ∀ j c, s.terminal = some (j, c) → c.upstreamStreamError ≠ none)
    (hsw : s.Sweep (i + 1))
    (href : ∀ a, s.refusal = some a → a = .failed r ∧ (∀ m, r.exn ≠ .clientAbort m) ∧
      (failoverRetryable r.exn → i + 1 = s.candidates.length ∧ s.terminal = none)) :
    (s.fail i r).Inv := by
  unfold fail
  split
  case h_1 m hm =>
    have hnone : s.refusal = none := by
      by_contra hne
      obtain ⟨a, ha⟩ := Option.ne_none_iff_exists'.mp hne
      exact (href a ha).2.1 m hm
    exact ⟨hsw.books, told_left hq.1 hq.2 hnone⟩
  case h_2 =>
    split
    case isTrue hretry =>
      by_cases hnone : s.refusal = none
      · exact inv_advance ⟨hq.1, hq.2, hterm, hnone⟩ hsw
      · -- turned down by the last candidate: its error event is what the relay ends with
        obtain ⟨a, ha⟩ := Option.ne_none_iff_exists'.mp hnone
        obtain ⟨rfl, -, hlast⟩ := href a ha
        obtain ⟨hlast, hterm'⟩ := hlast hretry
        rw [advance, if_neg (by simp [hlast])]
        simp only [hterm', Option.map_some]
        exact inv_conclude hsw.books hq.1 hq.2
          (fun j c hj => absurd (Option.some.inj hj) clusterErrorEvent_ne_chunk)
          fun a ha => ⟨r, (href a ha).1, rfl⟩
    case isFalse =>
      exact inv_conclude hsw.books hq.1 hq.2
        (fun j c hj => absurd (Option.some.inj hj) clusterErrorEvent_ne_chunk)
        fun a ha => ⟨r, (href a ha).1, rfl⟩

theorem inv_redialed (hq : s.Quiet) (hsw : s.Sweep (i + 1)) (hi : i < s.candidates.length)
    (habort : o.clientError → ∀ r, o.raised = some r → ∀ m, r.exn ≠ .clientAbort m)
    (hc : ∀ r, o.raised = some r → o.clientError → failoverRetryable r.exn →
      i + 1 = s.candidates.length ∧ s.terminal = none) : (s.redialed i o).Inv := by
  have hsw' : (s.record o).Sweep (i + 1) := hsw.record
  unfold redialed
  split
  case h_1 hr =>
    have hq' := record_quiet hq (.inl hr)
    exact ⟨hsw'.books, ⟨hq'.out, hq'.serving, hq'.terminal, hq'.refusal⟩, hsw', hi⟩
  case h_2 r hr =>
    refine inv_fail (s := s.record o) ⟨hq.out, hq.serving⟩ hq.terminal hsw' fun a ha => ?_
    obtain ⟨r', hr', rfl, hce⟩ := record_refusal hq ha
    cases hr.symm.trans hr'
    exact ⟨rfl, habort hce r hr, hc r hr hce⟩

theorem inv_commit {c : Chunk} (hb : Books s.rounds) (hout : s.out = [])
    (href : ∀ a, s.refusal = some a → a = .event i c) : (s.commit i c).Inv := by
  refine ⟨hb, rfl, fun x hx => ?_, fun a ha => ⟨c, href a ha, ?_⟩⟩
  · have hx' : x = .chunk i c := by simpa [commit, hout] using hx
    exact ⟨c, hx'⟩
  · simp [commit]

theorem inv_discard (hq : s.Quiet) (hsw : s.Sweep (i + 1)) (e : Exn) :
    (s.discard i e none).Inv :=
  inv_advance { hq with } hsw

theorem inv_primed (hq : s.Quiet) (hsw : s.Sweep (i + 1)) (f : First) :
    (s.primed i f none).Inv := by
  have hnone : ∀ a, s.refusal ≠ some a := fun a ha => by simp [hq.refusal] at ha
  cases f with
  | raised r =>
    exact inv_fail ⟨hq.out, hq.serving⟩ hq.terminal hsw fun a ha => absurd ha (hnone a)
  | ended => exact inv_discard hq hsw _
  | chunk c =>
    have hterm : ∀ j d, some (i, c) = some (j, d) → c.upstreamStreamError ≠ none →
        d.upstreamStreamError ≠ none := fun j d hd hc => by
      obtain ⟨rfl, rfl⟩ : i = j ∧ c = d := by simpa using hd
      exact hc
    have hcommit := inv_commit (i := i) (c := c) hsw.books hq.out fun a ha => absurd ha (hnone a)
    dsimp only [primed]
    split
    · exact inv_discard hq hsw _
    · split
      case h_1 => exact hcommit
      case h_2 m hm =>
        exact inv_discard (s := { s with terminal := some (i, c) })
          { hq with terminal := fun j d hd => hterm j d hd (by simp [hm]) } hsw _
      case h_3 code m hm =>
        split
        · exact inv_discard (s := { s with terminal := some (i, c) })
            { hq with terminal := fun j d hd => hterm j d hd (by simp [hm]) } hsw _
        · split
          · exact inv_commit (s := { s with refusal := _ }) hsw.books hq.out
              fun a ha => (Option.some.inj ha).symm
          · exact hcommit

/-! ## A step -/

/-- What holds at a phase is enough for the client. -/
theorem At.told (h : s.At) : s.Told := by
  have hquiet : s.Quiet → (∀ r, s.phase ≠ .ended r) → s.Told := fun hq hphase =>
    ⟨fun i hi => by simp [hq.serving] at hi, fun _ i c hc => by simp [hq.out] at hc,
      fun a ha => by simp [hq.refusal] at ha, fun r hr => absurd hr (hphase r)⟩
  unfold At at h
  split at h
  case h_1 hp | h_2 hp | h_3 hp | h_4 hp | h_5 hp => exact hquiet h.1 (by simp [hp])
  case h_6 i hp =>
    obtain ⟨hserving, hout, href⟩ := h
    refine ⟨fun j hj => ?_, fun hnone => by simp [hserving] at hnone, fun a ha => ?_,
      fun r hr => by simp [hp] at hr⟩
    · obtain rfl : i = j := Option.some.inj (hserving.symm.trans hj)
      exact hout
    · obtain ⟨c, rfl, hc⟩ := href a ha
      exact hc
  case h_7 r hp =>
    obtain ⟨hout, hserving, href⟩ := h
    refine ⟨fun i hi => by simp [hserving] at hi, fun _ i c hc => by simp [hout] at hc,
      fun a ha => ?_, fun r' hr => by simp [hp] at hr⟩
    rw [href a ha]
    exact .inl hp
  case h_8 hp => exact hquiet h (by simp [hp])
  case h_9 => exact h
  case h_10 => exact h

theorem Inv.sound (h : s.Inv) : s.Sound where
  toTold := h.at_phase.told
  replay := h.books.earlier
  order p hp := ⟨h.books.order p hp, p.route.nodup.sublist (h.books.order p hp).sublist⟩

theorem inv_init (streaming routed : Bool) (window now : ℚ) :
    (init streaming routed window now : Inquiry M).Inv :=
  ⟨⟨fun p hp => by simp [init] at hp, fun p hp => by simp [init] at hp⟩,
    ⟨rfl, rfl, fun j c h => by simp [init] at h, rfl⟩, fun p hp => by simp [init] at hp⟩

/-- **What one step keeps.** -/
theorem inv_step {s' : Inquiry M} {e : Label M} (h : s.Inv) (hc : s.Clean e)
    (hs : step s e = some s') : s'.Inv := by
  obtain ⟨hb, hat⟩ := h
  cases e with
  | begin l now gone =>
    simp only [step, Option.ite_none_right_eq_some, Option.some.injEq] at hs
    obtain ⟨⟨hp, -⟩, rfl⟩ := hs
    simp only [At, hp] at hat
    obtain ⟨hq, hsp⟩ := hat
    exact inv_begin (s := { s with now := now }) { hq with } hsp l
  | attempt a now gone =>
    simp only [step, Option.ite_none_right_eq_some] at hs
    obtain ⟨-, hs⟩ := hs
    split at hs
    case h_1 i hp =>
      cases hs
      simp only [At, hp] at hat
      simp only [Clean, hp] at hc
      obtain ⟨hq, hsw, hi, hu⟩ := hat
      exact inv_attempted (s := { s with now := now })
        { hq with } hsw hi hu hc
    case h_2 i hp =>
      cases hs
      simp only [At, hp] at hat
      simp only [Clean, hp] at hc
      obtain ⟨hq, hsw, hi⟩ := hat
      exact inv_redialed (s := { s with now := now })
        { hq with } hsw hi
        (fun hce r hr => proxyMember_refusal (refusal_of_clientError hce) r hr) hc
    case h_3 => cases hs
  | wake now gone =>
    simp only [step] at hs
    split at hs
    case h_1 w hp =>
      simp only [At, hp] at hat
      obtain ⟨hq, hsp⟩ := hat
      split at hs
      · cases hs
        exact ⟨hb, hq.out, hq.serving, fun a ha => by simp [hq.refusal] at ha⟩
      · simp only [Option.ite_none_right_eq_some, Option.some.injEq] at hs
        obtain ⟨-, rfl⟩ := hs
        exact ⟨hb, { hq with }, hsp⟩
    case h_2 => cases hs
  | first f close =>
    simp only [step] at hs
    split at hs
    case h_1 i hp =>
      cases hs
      simp only [At, hp] at hat
      obtain ⟨hq, hsw, hi⟩ := hat
      obtain rfl : close = none := hc
      exact inv_primed hq hsw f
    case h_2 => cases hs
  | more c =>
    simp only [step] at hs
    split at hs
    case h_1 i hp =>
      cases hs
      simp only [At, hp] at hat
      obtain ⟨hserving, hout, href⟩ := hat
      refine ⟨hb, ?_⟩
      simp only [At, hp]
      refine ⟨hserving, fun x hx => ?_, fun a ha => ?_⟩
      · rcases List.mem_append.mp hx with hx | hx
        · exact hout x hx
        · exact ⟨c, List.mem_singleton.mp hx⟩
      · obtain ⟨d, rfl, hd⟩ := href a ha
        exact ⟨d, rfl, List.mem_append_left _ hd⟩
    case h_2 => cases hs
  | finish r =>
    simp only [step] at hs
    split at hs
    case h_1 i hp =>
      cases hs
      have htold := At.told hat
      simp only [At, hp] at hat
      obtain ⟨hserving, hout, href⟩ := hat
      refine ⟨hb, htold.single, htold.silent, fun a ha => ?_, fun r' hr => .inr ?_⟩
      · obtain ⟨c, rfl, hc⟩ := href a ha
        exact hc
      · obtain rfl : r = r' := by simpa using hr
        exact ⟨by simp [hserving], rfl⟩
    case h_2 => cases hs
  | leave =>
    have htold := At.told hat
    have hgo : (∀ r, s.phase ≠ .raised r) ∧ some { s with phase := Phase.left } = some s' := by
      simp only [step] at hs
      split at hs <;> simp_all
    cases hgo.2
    refine ⟨hb, htold.single, htold.silent, fun a ha => ?_, fun r hr => by simp at hr⟩
    cases a with
    | failed r =>
      rcases htold.surfaced _ ha with hp | hout
      · exact absurd hp (hgo.1 r)
      · exact .inr hout
    | event i c => exact htold.surfaced _ ha

/-- Two replicas. -/
def twoReplicas : Route ℕ := ⟨[0, 1], by decide⟩

/-- A pass in which replica 0 refuses the connection and replica 1 is not ready, and after the pause
one in which replica 0 breaks down before its first event and replica 1 streams. -/
def rideThroughRun : List (Label ℕ) :=
  [.begin (.found twoReplicas) 0 false,
    .attempt ⟨.fine, .serving, .there none (.listed "worker" [.refused "no route to host"])⟩ 0 false,
    .attempt ⟨.fine, .silent, .left⟩ 0 false, .wake 1 false,
    .begin (.found twoReplicas) 1 false,
    .attempt ⟨.fine, .serving, .there none (.listed "worker" [.called ⟨none, [], .accepted⟩])⟩ 1 false,
    .first (.chunk (.upstreamError none "read timeout")) none,
    .attempt ⟨.fine, .serving, .here ⟨none, [], .accepted⟩⟩ 2 false,
    .first (.chunk (.event "data: hello")) none, .more (.event "data: [DONE]"), .finish none]

/-- The engine of replica 0 turns the request down, with a text that a classifier looks for. -/
def disabledRun : List (Label ℕ) :=
  [.begin (.found twoReplicas) 0 false,
    .attempt ⟨.fine, .serving, .there none (.listed "worker" [.called
      ⟨none, [], .rejected 400 "Bad Request" "tool choice is disabled"⟩])⟩ 0 false,
    .attempt ⟨.fine, .serving, .here ⟨none, [], .accepted⟩⟩ 0 false]

end SparkDeck.Cluster.Inquiry
