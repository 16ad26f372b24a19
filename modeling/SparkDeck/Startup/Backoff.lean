import Mathlib.Tactic.Linarith
import SparkDeck.Lib.Table
import SparkDeck.Startup.Monitor

/-!
# The probes back off

`Good` is what holds of an attempt, and `Inv` of the node: a fingerprint has one attempt that is not
over, whose deadline has passed before its probe begins, and what is persisted of its retries is what
the log says (`history`). So a probe that ends by itself delays the next one. One that is cancelled,
or that a kill ends, does not.
-/

namespace SparkDeck.Startup

open Transition Function

variable {F : Type*} [DecidableEq F] {s s' : State F} {i j : ℕ} {a a' b : Attempt F} {f g : F}
  {l : Option ℕ} {log : List (Event F)} {how : Outcome}

/-! ## Histories -/

/-- What is persisted of the retries. -/
def history (f : F) (log : List (Event F)) : Option Retry :=
  (lastDeadline Outcome.isOwn f log).map fun d => ⟨min (number Outcome.isOwn f log) 9, d⟩

theorem number_eq_zero (hs : Spaced Outcome.isOwn log)
    (hn : lastDeadline Outcome.isOwn f log = none) : number Outcome.isOwn f log = 0 := by
  induction log with
  | nil => rfl
  | cons e log ih =>
    cases e with
    | dispatched g t => exact ih hs.2 hn
    | unsuccessful g t how d =>
      unfold lastDeadline at hn
      unfold number
      split at hn
      case isTrue hc =>
        obtain ⟨d', hd, _⟩ := hs.1 hc.2
        cases hd.symm.trans hn
      case isFalse hc =>
        rw [if_neg hc]
        exact ih hs.2 hn

theorem history_previous (hs : Spaced Outcome.isOwn log) :
    Retry.previous (history f log) = min (number Outcome.isOwn f log) 9 := by
  unfold history
  cases hd : lastDeadline Outcome.isOwn f log with
  | none => rw [number_eq_zero hs hd]; rfl
  | some d => rfl

section cons

variable {t : ℚ} {d : Option ℚ}

/-- A probe of another fingerprint, or one that does not count. -/
theorem lastDeadline_skip (h : ¬(g = f ∧ how.isOwn)) :
    lastDeadline Outcome.isOwn f (.unsuccessful g t how d :: log) =
      lastDeadline Outcome.isOwn f log := if_neg h

theorem history_skip (h : ¬(g = f ∧ how.isOwn)) :
    history f (.unsuccessful g t how d :: log) = history f log := by
  have hnum : number Outcome.isOwn f (.unsuccessful g t how d :: log) =
      number Outcome.isOwn f log := if_neg h
  unfold history
  rw [lastDeadline_skip h, hnum]

theorem history_own {d : ℚ} (h : how.isOwn) :
    history f (.unsuccessful f t how (some d) :: log) =
      some ⟨min (number Outcome.isOwn f log + 1) 9, d⟩ := by
  have hlast : lastDeadline Outcome.isOwn f (.unsuccessful f t how (some d) :: log) = some d :=
    if_pos ⟨rfl, h⟩
  have hnum : number Outcome.isOwn f (.unsuccessful f t how (some d) :: log) =
      number Outcome.isOwn f log + 1 := if_pos ⟨rfl, h⟩
  unfold history
  rw [hlast, hnum]
  rfl

end cons

theorem backOffDelay_eq (n : ℕ) : delay (n + 1) ≤ backOffDelay (min (min n 9 + 1) 9) := by
  have hbound : ∀ m : ℕ, 8 ≤ m → (3600 : ℚ) ≤ 60 * 2 ^ m := by
    intro m hm
    have hpow : (2 : ℚ) ^ 8 ≤ 2 ^ m := pow_le_pow_right₀ (by norm_num) hm
    norm_num at hpow
    linarith
  unfold delay backOffDelay retryBackoffBase retryBackoffMax retryBackoffMaxExponent
  by_cases hn : n ≤ 8
  · have he : min (min (min n 9 + 1) 9 - 1) 8 = n := by omega
    rw [he, Nat.add_sub_cancel]
  · have he : min (min (min n 9 + 1) 9 - 1) 8 = 8 := by omega
    rw [he, min_eq_right (hbound 8 (Nat.le_refl 8))]
    exact min_le_right _ _

/-! ## The invariant -/

def Stage.holds : Stage → Bool
  | fresh => true
  | probing => true
  | closing _ => true
  | _ => false

theorem Stage.isProbe_holds {x : Stage} (h : x.isProbe) : x.holds := by
  cases x with
  | probing => rfl
  | closing o => rfl
  | _ => cases h

/-- A snapshot of the consent. -/
def Snap (s : State F) (generation : ℕ) (disturbed : Bool) : Prop :=
  (disturbed = false → s.enabled = true ∧ generation = s.generation) ∧
    (disturbed → generation < s.generation)

structure Good (s : State F) (i : ℕ) (a : Attempt F) : Prop where
  lock : a.stage.holds ↔ s.lock = some i
  table : a.popped = false → s.tasks a.fingerprint = some i
  live : a.stage ≠ .over → a.popped = false
  active : a.active → a.stage.isProbe
  snap : Snap s a.generation a.disturbed
  observed : a.recorded → a.observed
  marked : a.recorded → s.seen a.fingerprint
  seen : a.stage ≠ .over → s.seen a.fingerprint → a.recorded
  due : a.stage ≠ .over → a.stage.isProbe = false →
    ∀ d, lastDeadline Outcome.isOwn a.fingerprint s.log = some d → d ≤ s.now

/-- No attempt for the fingerprint is under way. -/
def Idle (s : State F) (f : F) : Prop :=
  ∀ (i : ℕ) (a : Attempt F), s.attempts[i]? = some a → a.fingerprint = f → a.stage = .over

structure Inv (s : State F) : Prop where
  good : ∀ (i : ℕ) (a : Attempt F), s.attempts[i]? = some a → Good s i a
  held : ∀ i, s.lock = some i → i < s.attempts.length
  ticking : ∀ t, s.ticking = some t → Snap s t.1 t.2
  samples : ∀ x ∈ s.samples, s.seen x.1 = true ∧ x.2 = false
  once : (s.samples.map Prod.fst).Nodup
  retry : ∀ f, s.retry f = history f s.log ∨ s.seen f ∧ Idle s f
  spaced : Spaced Outcome.isOwn s.log

theorem Inv.sound (h : Inv s) : Sound s Outcome.isOwn :=
  { h with
    exclusive i j a b hi hj ha hb :=
      Option.some.inj ((((h.good i a hi).lock.mp (Stage.isProbe_holds ha)).symm).trans
        ((h.good j b hj).lock.mp (Stage.isProbe_holds hb)))
    consented x hx := (h.samples x hx).2
    ended i a hi := (h.good i a hi).active }

/-- A fingerprint has one attempt under way. -/
theorem Inv.unique (h : Inv s) (hi : s.attempts[i]? = some a) (hj : s.attempts[j]? = some b)
    (hf : b.fingerprint = a.fingerprint) (ha : a.stage ≠ .over) (hb : b.stage ≠ .over) : j = i := by
  have hta := (h.good i a hi).table ((h.good i a hi).live ha)
  have htb := (h.good j b hj).table ((h.good j b hj).live hb)
  rw [hf] at htb
  exact Option.some.inj (htb.symm.trans hta)

theorem Inv.retry_live (h : Inv s) (hi : s.attempts[i]? = some a) (ha : a.stage ≠ .over) :
    s.retry a.fingerprint = history a.fingerprint s.log :=
  (h.retry a.fingerprint).resolve_right fun hr => ha (hr.2 i a hi rfl)

theorem inv_init (now : ℚ) (enabled : Bool) (generation : ℕ) (cluster : Bool) :
    Inv (init now enabled generation cluster : State F) where
  good i a hi := by cases hi
  held i hl := by cases hl
  ticking t ht := by cases ht
  samples x hx := absurd hx List.not_mem_nil
  once := List.nodup_nil
  retry f := Or.inl rfl
  spaced := trivial

/-! ## One attempt goes on -/

/-- One attempt changes, and perhaps who has `_serial`. -/
def State.move (s : State F) (i : ℕ) (a : Attempt F) (l : Option ℕ) : State F :=
  { s.put i a with lock := l }

theorem Inv.move (h : Inv s) (hi : s.attempts[i]? = some a)
    (hf : a'.fingerprint = a.fingerprint) (hover : a.stage = .over → a'.stage = .over)
    (hlock : ∀ j, j ≠ i → (s.lock = some j ↔ l = some j)) (hgood : Good (s.move i a' l) i a') :
    Inv (s.move i a' l) :=
  { h with
    good j b hj := by
      rcases Table.set_cases hj with ⟨rfl, rfl⟩ | ⟨hne, hj'⟩
      · exact hgood
      · have hb := h.good j b hj'
        exact { hb with lock := hb.lock.trans (hlock j hne) }
    held j hl := by
      have hlen : (s.move i a' l).attempts.length = s.attempts.length := List.length_set
      rw [hlen]
      by_cases hj : j = i
      · subst hj
        exact (List.getElem?_eq_some_iff.mp hi).1
      · exact h.held j ((hlock j hj).mpr hl)
    retry g := by
      refine (h.retry g).imp_right fun hr => ⟨hr.1, fun j b hj hb => ?_⟩
      rcases Table.set_cases hj with ⟨rfl, rfl⟩ | ⟨_, hj'⟩
      · exact hover (hr.2 j a hi (hf ▸ hb))
      · exact hr.2 j b hj' hb }

/-- The lock stays. -/
theorem Inv.put (h : Inv s) (hi : s.attempts[i]? = some a) (hf : a'.fingerprint = a.fingerprint)
    (hover : a.stage = .over → a'.stage = .over) (hgood : Good s i a') : Inv (s.put i a') := by
  have hmove : s.put i a' = s.move i a' s.lock := rfl
  rw [hmove]
  exact h.move hi hf hover (fun _ _ => Iff.rfl) { hgood with }

/-- The attempt is over, and leaves `_serial` if it has it. -/
theorem Good.over (hg : Good s i a) {l : Option ℕ} (hl : l ≠ some i) :
    Good (s.move i { a with stage := .over, cancelled := false, active := false } l) i
      { a with stage := .over, cancelled := false, active := false } :=
  { hg with
    lock := ⟨nofun, fun he => absurd he hl⟩
    live hn := absurd rfl hn
    active ha := by cases ha
    seen hn := absurd rfl hn
    due hn := absurd rfl hn }

theorem Inv.leave (h : Inv s) (hi : s.attempts[i]? = some a)
    (hlock : s.lock = none ∨ s.lock = some i) : Inv (s.leave i a) := by
  refine h.move (l := none) hi rfl (fun _ => rfl) (fun j hne => ?_)
    ((h.good i a hi).over nofun)
  rcases hlock with hl | hl
  · rw [hl]
  · rw [hl]
    exact iff_of_false (fun he => hne (Option.some.inj he).symm) nofun

/-- Without `_serial`. -/
theorem Inv.drop (h : Inv s) (hi : s.attempts[i]? = some a) (hst : a.stage.holds = false)
    (hact : a.stage.isProbe = false) :
    Inv (s.put i { a with stage := .over, cancelled := false }) := by
  have hg := h.good i a hi
  have hl : s.lock ≠ some i := fun he => by rw [hg.lock.mpr he] at hst; cases hst
  refine h.put hi rfl (fun _ => rfl) ?_
  refine { hg with lock := ?lock, live := ?live, active := ?active, seen := ?seen, due := ?due }
  case lock => exact ⟨nofun, fun he => absurd he hl⟩
  case live | seen | due => exact fun hn => absurd rfl hn
  case active => exact fun ha => by rw [hg.active ha] at hact; cases hact

/-- An attempt that goes on: what changes before it records. -/
def Attempt.next (a : Attempt F) (st : Stage) (cancelled enabled active streamed : Bool) :
    Attempt F :=
  ⟨a.fingerprint, a.generation, st, cancelled, a.popped, enabled, active, streamed, a.observed,
    a.recorded, a.disturbed⟩

theorem Good.go (hg : Good s i a) (hlive : a.stage ≠ .over) (st : Stage) (c e act m : Bool)
    (hlock : st.holds ↔ l = some i) (hact : act → st.isProbe)
    (hdue : st.isProbe = false → a.stage.isProbe = false) :
    Good (s.move i (a.next st c e act m) l) i (a.next st c e act m) :=
  { hg with
    lock := hlock
    live _ := hg.live hlive
    active := hact
    seen _ := hg.seen hlive
    due _ hp := hg.due hlive (hdue hp) }

/-- It keeps `_serial`, or stays without. -/
theorem Inv.go (h : Inv s) (hi : s.attempts[i]? = some a) (hlive : a.stage ≠ .over) (st : Stage)
    (c e act m : Bool) (hholds : st.holds = a.stage.holds) (hact : act → st.isProbe)
    (hdue : st.isProbe = false → a.stage.isProbe = false) :
    Inv (s.put i (a.next st c e act m)) :=
  h.move hi rfl (fun he => absurd he hlive) (fun _ _ => Iff.rfl)
    ((h.good i a hi).go hlive st c e act m (hholds ▸ (h.good i a hi).lock) hact hdue)

/-- Before its probe no observation is active. -/
theorem Good.inactive (hg : Good s i a) (hst : a.stage.isProbe = false) : a.active = false := by
  cases ha : a.active with
  | false => rfl
  | true => rw [hg.active ha] at hst; cases hst

/-! ## The log -/

theorem Inv.dispatched (h : Inv s) (hi : s.attempts[i]? = some a) (hst : a.stage = .fresh) :
    Inv { s with log := .dispatched a.fingerprint s.now :: s.log } :=
  { h with
    good j b hj := { h.good j b hj with }
    spaced := ⟨(h.good i a hi).due (by simp [hst]) (by simp [hst, Stage.isProbe]), h.spaced⟩ }

theorem Inv.cutShort (h : Inv s) (hhow : how.isOwn = false) : Inv (s.cutShort a how) := by
  unfold State.cutShort
  split
  case isTrue => exact h
  case isFalse =>
    have hskip : ∀ g : F, ¬(a.fingerprint = g ∧ how.isOwn) := fun g hc => by
      rw [hhow] at hc
      cases hc.2
    refine { h with good := ?good, retry := ?retry, spaced := ?spaced }
    case good =>
      intro j b hj
      exact { h.good j b hj with
        due := fun hn hp d hd => (h.good j b hj).due hn hp d ((lastDeadline_skip (hskip _)).symm.trans hd) }
    case retry =>
      intro g
      exact (h.retry g).imp_left fun hr => hr.trans (history_skip (hskip g)).symm
    case spaced => exact ⟨fun hc => absurd hc (by simp [hhow]), h.spaced⟩

/-- The retry of a fingerprint without an attempt under way is persisted. -/
theorem Inv.backOff (h : Inv s) (hidle : Idle s f) (hretry : s.retry f = history f s.log)
    (hhow : how.isOwn) : Inv (s.backOff f how) := by
  have hskip : ∀ {g : F}, g ≠ f → ¬(f = g ∧ how.isOwn) := fun hne hc => hne hc.1.symm
  have hattempts := (congrArg Retry.previous hretry).trans (history_previous h.spaced)
  unfold State.backOff
  rw [hattempts]
  refine { h with good := ?good, retry := ?retry, spaced := ?spaced }
  case good =>
    intro j b hj
    have hb := h.good j b hj
    refine { hb with due := fun hn hp d hd => ?_ }
    have hne : b.fingerprint ≠ f := fun he => hn (hidle j b hj he)
    exact hb.due hn hp d ((lastDeadline_skip (hskip hne)).symm.trans hd)
  case retry =>
    intro g
    by_cases hg : g = f
    · subst hg
      refine Or.inl ((update_self _ _ _).trans (Eq.trans ?_ (history_own hhow).symm))
      have hcap : min (min (number Outcome.isOwn g s.log) 9 + 1) (retryBackoffMaxExponent + 1) =
          min (number Outcome.isOwn g s.log + 1) 9 := by
        unfold retryBackoffMaxExponent
        omega
      rw [hcap]
    · refine (h.retry g).imp_left fun hr => (update_of_ne hg _ _).trans (hr.trans ?_)
      exact (history_skip (hskip hg)).symm
  case spaced =>
    refine ⟨fun _ => ⟨_, rfl, ?_⟩, h.spaced⟩
    have hdelay := backOffDelay_eq (number Outcome.isOwn f s.log)
    simp only [retryBackoffMaxExponent]
    linarith

/-! ## The end of a probe -/

/-- The attempt that was under way is over. -/
theorem Inv.idle_leave (h : Inv s) (hi : s.attempts[i]? = some a) (hst : a.stage ≠ .over) :
    Idle (s.leave i a) a.fingerprint := by
  intro j b hj hf
  rcases Table.set_cases hj with ⟨_, rfl⟩ | ⟨hne, hj'⟩
  · rfl
  · by_contra hb
    exact hne (h.unique hi hj' hf hst hb)

/-- The retry of a fingerprint with a sample is forgotten. -/
theorem Inv.forget (h : Inv s) (hidle : Idle s f) (hseen : s.seen f) :
    Inv { s with
      memory := update s.memory f none
      retry := update s.retry f none } :=
  { h with
    good j b hj := { h.good j b hj with }
    retry g := by
      by_cases hg : g = f
      · subst hg
        exact Or.inr ⟨hseen, hidle⟩
      · exact (h.retry g).imp_left fun hr => (update_of_ne hg _ _).trans hr }

theorem Inv.conclude (h : Inv s) (hi : s.attempts[i]? = some a) (hst : a.stage.holds)
    (outcome : Outcome) : Inv (s.conclude i a outcome) := by
  have hg := h.good i a hi
  have hlive : a.stage ≠ .over := fun he => by rw [he] at hst; cases hst
  have hleave := h.leave hi (Or.inr (hg.lock.mp hst))
  have hidle := h.idle_leave hi hlive
  have hretry : (s.leave i a).retry a.fingerprint = history a.fingerprint (s.leave i a).log :=
    h.retry_live hi hlive
  cases outcome with
  | returned =>
    dsimp only [State.conclude]
    split
    case isTrue hr => exact hleave.forget hidle (hg.marked hr)
    case isFalse => exact hleave.backOff hidle hretry rfl
  | failed => exact hleave.backOff hidle hretry rfl
  | cancelled => exact hleave.cutShort rfl
  | killed => exact hleave

/-- A sample is recorded for an attempt under way that has none. -/
theorem Inv.record (h : Inv s) (hi : s.attempts[i]? = some a) (hst : a.stage.isProbe)
    (hobs : a.observed = false) (eligible : Bool) : Inv (s.record i a eligible) := by
  have hg := h.good i a hi
  have hlive : a.stage ≠ .over := fun he => by rw [he] at hst; cases hst
  have hrec : ¬a.recorded := fun hr => by rw [hg.observed hr] at hobs; cases hobs
  unfold State.record
  split
  case isFalse =>
    exact h.put hi rfl id { hg with observed := fun _ => rfl }
  case isTrue hc =>
    obtain ⟨_, _, _, hgen, _⟩ := hc
    have hunseen : s.seen a.fingerprint = false := by
      cases hs : s.seen a.fingerprint with
      | false => rfl
      | true => exact absurd (hg.seen hlive hs) hrec
    -- the generation did not change since the tick
    have hclean : a.disturbed = false := by
      cases hd : a.disturbed with
      | false => rfl
      | true => exact absurd hgen (Nat.ne_of_gt (hg.snap.2 hd))
    have hmono : ∀ f, s.seen f → update s.seen a.fingerprint true f := by
      intro f hf
      by_cases he : f = a.fingerprint
      · subst he
        exact update_self _ _ _
      · exact (update_of_ne he _ _).trans hf
    constructor
    case good =>
      intro j b hj
      rcases Table.set_cases hj with ⟨rfl, rfl⟩ | ⟨hne, hj'⟩
      · exact { hg with
          observed := fun _ => rfl
          marked := fun _ => update_self _ _ _
          seen := fun _ _ => rfl }
      · have hb := h.good j b hj'
        refine { hb with marked := fun hr => hmono _ (hb.marked hr), seen := fun hn hs => ?_ }
        have hf : b.fingerprint ≠ a.fingerprint := fun hf => hne (h.unique hi hj' hf hlive hn)
        exact hb.seen hn ((update_of_ne hf _ _).symm.trans hs)
    case held =>
      intro j hl
      exact lt_of_lt_of_eq (h.held j hl) List.length_set.symm
    case ticking => exact h.ticking
    case samples =>
      intro x hx
      rcases List.mem_cons.mp hx with rfl | hx
      · exact ⟨update_self _ _ _, hclean⟩
      · exact ⟨hmono _ (h.samples x hx).1, (h.samples x hx).2⟩
    case once =>
      refine List.nodup_cons.mpr ⟨fun hmem => ?_, h.once⟩
      obtain ⟨x, hx, hf⟩ := List.mem_map.mp hmem
      have hseen := (h.samples x hx).1
      rw [hf, hunseen] at hseen
      cases hseen
    case retry =>
      intro f
      refine (h.retry f).imp_right fun hr => ⟨hmono f hr.1, fun j b hj hb => ?_⟩
      rcases Table.set_cases hj with ⟨rfl, rfl⟩ | ⟨_, hj'⟩
      · exact hr.2 j a hi hb
      · exact hr.2 j b hj' hb
    case spaced => exact h.spaced

/-! ## Ticks -/

theorem retryDeadline_eq (h : s.retry f = history f s.log) :
    ∀ d, lastDeadline Outcome.isOwn f s.log = some d → s.retryDeadline f = d := by
  intro d hd
  unfold State.retryDeadline
  rw [h, history, hd]
  rfl

/-- An attempt is created only for a fingerprint without one, once its deadline has passed. -/
theorem Inv.schedule (h : Inv s) {snapshot : ℕ × Bool} (hsnap : Snap s snapshot.1 snapshot.2)
    (f : F) : Inv (s.schedule snapshot f) := by
  unfold State.schedule
  split
  case isTrue => exact h
  case isFalse hfree =>
    split
    case isTrue => exact h
    case isFalse hnow =>
      have hnone : s.tasks f = none := by
        cases ht : s.tasks f with
        | none => rfl
        | some i => exact absurd (Or.inl (by rw [ht]; rfl)) hfree
      have hunseen : ¬s.seen f := fun hs => hfree (Or.inr hs)
      have hpopped : ∀ {j : ℕ} {b : Attempt F}, s.attempts[j]? = some b → b.popped = false →
          b.fingerprint ≠ f := by
        rintro j b hj hp rfl
        cases hnone.symm.trans ((h.good j b hj).table hp)
      refine { h with good := ?good, held := ?held, retry := ?retry }
      case good =>
        intro j b hj
        rcases Table.append_cases hj with hj' | ⟨rfl, rfl⟩
        · have hb := h.good j b hj'
          exact { hb with
            table := fun hp => (update_of_ne (hpopped hj' hp) _ _).trans (hb.table hp) }
        · constructor
          case lock => exact ⟨nofun, fun he => absurd (h.held _ he) (Nat.lt_irrefl _)⟩
          case table => exact fun _ => update_self _ _ _
          case live => exact fun _ => rfl
          case active | observed | marked => exact nofun
          case snap => exact hsnap
          case seen => exact fun _ hs => absurd hs hunseen
          case due =>
            intro _ _ d hd
            have hretry := (h.retry f).resolve_right fun hr => hunseen hr.1
            have hdeadline := retryDeadline_eq hretry d hd
            rw [← hdeadline]
            exact (le_max_right _ _).trans (not_lt.mp hnow)
      case held =>
        exact fun j hl => (h.held j hl).trans_le (List.sublist_append_left _ _).length_le
      case retry =>
        refine fun g => (h.retry g).imp_right fun hr => ⟨hr.1, fun j b hj hb => ?_⟩
        rcases Table.append_cases hj with hj' | ⟨rfl, rfl⟩
        · exact hr.2 j b hj' hb
        · have hf : f = g := hb
          exact absurd (hf ▸ hr.1) hunseen

theorem schedule_consent (snapshot : ℕ × Bool) (f : F) :
    (s.schedule snapshot f).enabled = s.enabled ∧
      (s.schedule snapshot f).generation = s.generation := by
  unfold State.schedule
  split
  · exact ⟨rfl, rfl⟩
  · split
    · exact ⟨rfl, rfl⟩
    · exact ⟨rfl, rfl⟩

theorem Inv.tickEnds (h : Inv s) {snapshot : ℕ × Bool} (hsnap : Snap s snapshot.1 snapshot.2)
    (targets : List F) : Inv (targets.foldl (fun t f => t.schedule snapshot f) s) := by
  induction targets generalizing s with
  | nil => exact h
  | cons f targets ih =>
    refine ih (h.schedule hsnap f) ?_
    obtain ⟨he, hg⟩ := schedule_consent (s := s) snapshot f
    unfold Snap
    rw [he, hg]
    exact hsnap

/-! ## Consent, and the process -/

omit [DecidableEq F] in
theorem Snap.consented {generation generation' : ℕ} {disturbed enabled cluster : Bool}
    (h : Snap s generation disturbed) (hle : s.generation ≤ generation')
    (hoff : s.enabled = true → enabled = false → s.generation < generation') :
    Snap (s.consented enabled generation' cluster) generation
      (disturbed || (!enabled || generation' ≠ s.generation)) := by
  constructor
  · intro hd
    simp only [Bool.or_eq_false_iff, Bool.not_eq_false', decide_eq_false_iff_not, not_not] at hd
    obtain ⟨hd, hon, hsame⟩ := hd
    exact ⟨hon, (h.1 hd).2.trans hsame.symm⟩
  · intro hd
    cases disturbed with
    | true => exact Nat.lt_of_lt_of_le (h.2 rfl) hle
    | false =>
      obtain ⟨hon, hgen⟩ := h.1 rfl
      rw [hgen]
      cases henabled : enabled with
      | false => exact hoff hon henabled
      | true =>
        have hne : generation' ≠ s.generation := by simpa [henabled] using hd
        exact Nat.lt_of_le_of_ne hle hne.symm

theorem Inv.consented (h : Inv s) {generation : ℕ} {enabled cluster : Bool}
    (hle : s.generation ≤ generation)
    (hoff : s.enabled = true → enabled = false → s.generation < generation) :
    Inv (s.consented enabled generation cluster) := by
  have hget : ∀ {j : ℕ} {b : Attempt F}, (s.consented enabled generation cluster).attempts[j]? = some b →
      ∃ c, s.attempts[j]? = some c ∧
        b = { c with disturbed := c.disturbed || (!enabled || generation ≠ s.generation) } := by
    intro j b hj
    obtain ⟨c, hc, rfl⟩ := Option.map_eq_some_iff.mp ((List.getElem?_map).symm.trans hj)
    exact ⟨c, hc, rfl⟩
  refine { h with good := ?good, held := ?held, ticking := ?ticking, retry := ?retry }
  case good =>
    intro j b hj
    obtain ⟨c, hc, rfl⟩ := hget hj
    have hg := h.good j c hc
    exact { hg with snap := hg.snap.consented hle hoff }
  case held => exact fun j hl => lt_of_lt_of_eq (h.held j hl) (List.length_map _).symm
  case ticking =>
    intro t ht
    obtain ⟨u, hu, rfl⟩ := Option.map_eq_some_iff.mp ht
    exact (h.ticking u hu).consented hle hoff
  case retry =>
    refine fun g => (h.retry g).imp_right fun hr => ⟨hr.1, fun j b hj hb => ?_⟩
    obtain ⟨c, hc, rfl⟩ := hget hj
    exact hr.2 j c hc hb

theorem Inv.cancelActive (h : Inv s) : Inv s.cancelActive := by
  have hget : ∀ {j : ℕ} {b : Attempt F}, s.cancelActive.attempts[j]? = some b →
      ∃ c, s.attempts[j]? = some c ∧ (b = c ∨ b = { c with cancelled := true }) := by
    intro j b hj
    obtain ⟨c, hc, rfl⟩ := Option.map_eq_some_iff.mp ((List.getElem?_map).symm.trans hj)
    refine ⟨c, hc, ?_⟩
    split
    · exact Or.inl rfl
    · exact Or.inr rfl
  refine { h with good := ?good, held := ?held, retry := ?retry }
  case good =>
    intro j b hj
    obtain ⟨c, hc, rfl | rfl⟩ := hget hj
    · exact { h.good j b hc with }
    · exact { h.good j c hc with }
  case held => exact fun j hl => lt_of_lt_of_eq (h.held j hl) (List.length_map _).symm
  case retry =>
    refine fun g => (h.retry g).imp_right fun hr => ⟨hr.1, fun j b hj hb => ?_⟩
    obtain ⟨c, hc, rfl | rfl⟩ := hget hj
    · exact hr.2 j b hc hb
    · exact hr.2 j c hc hb

theorem Inv.interrupt (h : Inv s) : Inv s.interrupt := by
  unfold State.interrupt
  split
  · split
    · split
      · exact h.cutShort rfl
      · exact h
    · exact h
  · exact h

theorem Inv.restart (h : Inv s) : Inv s.restart := by
  have hget : ∀ {j : ℕ} {b : Attempt F}, s.restart.attempts[j]? = some b →
      ∃ c, s.attempts[j]? = some c ∧
        b = { c with stage := .over, cancelled := false, popped := true, active := false } := by
    intro j b hj
    obtain ⟨c, hc, rfl⟩ := Option.map_eq_some_iff.mp ((List.getElem?_map).symm.trans hj)
    exact ⟨c, hc, rfl⟩
  refine { h with good := ?good, held := ?held, ticking := ?ticking, retry := ?retry }
  case good =>
    intro j b hj
    obtain ⟨c, hc, rfl⟩ := hget hj
    have hg := h.good j c hc
    constructor
    case lock => exact ⟨nofun, nofun⟩
    case table => exact nofun
    case live | seen | due => exact fun hn => absurd rfl hn
    case active => exact nofun
    case snap => exact hg.snap
    case observed => exact hg.observed
    case marked => exact hg.marked
  case held => exact fun j hl => by cases hl
  case ticking => exact fun t ht => by cases ht
  case retry =>
    refine fun g => (h.retry g).imp_right fun hr => ⟨hr.1, fun j b hj _ => ?_⟩
    obtain ⟨c, _, rfl⟩ := hget hj
    rfl

theorem Inv.wait (h : Inv s) {d : ℚ} (hd : 0 ≤ d) : Inv { s with now := s.now + d } :=
  { h with
    good j b hj := by
      have hg := h.good j b hj
      refine { hg with due := fun hn hp e he => ?_ }
      have hdue := hg.due hn hp e he
      linarith }

/-! ## Runs -/

/-- The done callback removes the entry of an attempt that is over. -/
theorem Inv.callback (h : Inv s) (hi : s.attempts[i]? = some a) (hst : a.stage = .over)
    (hp : a.popped = false) :
    Inv { s.put i { a with popped := true } with
      tasks := update s.tasks a.fingerprint none } := by
  have hg := h.good i a hi
  refine { h with good := ?good, held := ?held, retry := ?retry }
  case good =>
    intro j b hj
    rcases Table.set_cases hj with ⟨rfl, rfl⟩ | ⟨hne, hj'⟩
    · exact { hg with table := nofun, live := fun hn => absurd hst hn }
    · have hb := h.good j b hj'
      refine { hb with table := fun hbp => ?_ }
      have htable := hb.table hbp
      have hf : b.fingerprint ≠ a.fingerprint := by
        intro hf
        rw [hf] at htable
        exact hne (Option.some.inj (htable.symm.trans (hg.table hp)))
      exact (update_of_ne hf _ _).trans htable
  case held => exact fun j hl => lt_of_lt_of_eq (h.held j hl) List.length_set.symm
  case retry =>
    refine fun g => (h.retry g).imp_right fun hr => ⟨hr.1, fun j b hj hb => ?_⟩
    rcases Table.set_cases hj with ⟨rfl, rfl⟩ | ⟨_, hj'⟩
    · exact hst
    · exact hr.2 j b hj' hb

theorem Inv.stepAttempt (h : Inv s) (hi : s.attempts[i]? = some a) {act : Act F}
    (hs : stepAttempt s i a act = some s') : Inv s' := by
  have hg := h.good i a hi
  cases act with
  | checked j healthy =>
    dsimp only [Startup.stepAttempt] at hs
    obtain ⟨hst, rfl⟩ := guard_some hs
    cases healthy with
    | false => exact h.drop hi (by rw [hst]; rfl) (by rw [hst]; rfl)
    | true =>
      have hnone := hg.inactive (by rw [hst]; rfl)
      exact h.go hi (by rw [hst]; nofun) .queued a.cancelled a.enabled a.active a.streamed
        (by rw [hst]; rfl) (fun ha => by rw [hnone] at ha; cases ha) fun _ => by rw [hst]; rfl
  | acquire j =>
    dsimp only [Startup.stepAttempt] at hs
    obtain ⟨hc, hs⟩ := Option.ite_none_right_eq_some.mp hs
    obtain ⟨hst, hlock⟩ := hc
    split at hs
    case isFalse =>
      cases hs
      exact h.leave hi (Or.inl hlock)
    case isTrue =>
      cases hs
      have hnone := hg.inactive (by rw [hst]; rfl)
      refine h.move hi rfl (fun he => by rw [hst] at he; cases he) (fun k hk => ?_)
        (hg.go (by rw [hst]; nofun) .fresh a.cancelled a.enabled a.active a.streamed
          (iff_of_true rfl rfl) (fun ha => by rw [hnone] at ha; cases ha)
          fun _ => by rw [hst]; rfl)
      rw [hlock]
      exact iff_of_false nofun fun he => hk (Option.some.inj he).symm
  | refreshed j ready =>
    dsimp only [Startup.stepAttempt] at hs
    obtain ⟨hst, hs⟩ := Option.ite_none_right_eq_some.mp hs
    split at hs
    case isFalse =>
      cases hs
      exact h.leave hi (Or.inr (hg.lock.mp (by rw [hst]; rfl)))
    case isTrue =>
      cases hs
      exact (h.dispatched hi hst).go hi (by rw [hst]; nofun) .probing a.cancelled s.enabled
        a.active a.streamed (by rw [hst]; rfl) (fun _ => rfl) nofun
  | activate j =>
    dsimp only [Startup.stepAttempt] at hs
    obtain ⟨hc, rfl⟩ := guard_some hs
    exact h.go hi (by rw [hc.1]; nofun) a.stage a.cancelled a.enabled true a.streamed rfl
      (fun _ => by rw [hc.1]; rfl) id
  | streamEnds j =>
    dsimp only [Startup.stepAttempt] at hs
    obtain ⟨hc, rfl⟩ := guard_some hs
    exact h.go hi (by rw [hc.1]; nofun) a.stage a.cancelled a.enabled false true rfl nofun id
  | records j eligible =>
    dsimp only [Startup.stepAttempt] at hs
    obtain ⟨hc, rfl⟩ := guard_some hs
    exact h.record hi hc.1 hc.2.2 eligible
  | returns j =>
    dsimp only [Startup.stepAttempt] at hs
    obtain ⟨hst, rfl⟩ := guard_some hs
    exact h.go hi (by rw [hst]; nofun) (.closing .returned) a.cancelled a.enabled a.active
      a.streamed (by rw [hst]; rfl) (fun _ => rfl) nofun
  | fails j =>
    dsimp only [Startup.stepAttempt] at hs
    split at hs
    case h_1 hst | h_2 hst =>
      cases hs
      exact h.go hi (by rw [hst]; nofun) (.closing .failed) a.cancelled a.enabled a.active
        a.streamed (by rw [hst]; rfl) (fun _ => rfl) nofun
    case h_3 => cases hs
  | deliver j =>
    dsimp only [Startup.stepAttempt] at hs
    obtain ⟨_, hs⟩ := Option.ite_none_left_eq_some.mp hs
    split at hs
    case h_1 hst | h_2 hst =>
      cases hs
      exact h.drop hi (by rw [hst]; rfl) (by rw [hst]; rfl)
    case h_3 hst =>
      cases hs
      exact h.leave hi (Or.inr (hg.lock.mp (by rw [hst]; rfl)))
    case h_4 hst =>
      cases hs
      exact h.go hi (by rw [hst]; nofun) (.closing .cancelled) false a.enabled a.active
        a.streamed (by rw [hst]; rfl) (fun _ => rfl) nofun
    case h_5 hst =>
      cases hs
      exact h.conclude hi (by rw [hst]; rfl) .cancelled
    case h_6 => cases hs
  | closed j =>
    dsimp only [Startup.stepAttempt] at hs
    split at hs
    · next outcome hst =>
      cases hs
      exact h.conclude hi (by rw [hst]; rfl) outcome
    · cases hs
  | callback j =>
    dsimp only [Startup.stepAttempt] at hs
    obtain ⟨hc, rfl⟩ := guard_some hs
    exact h.callback hi hc.1 hc.2
  | tick | tickEnds _ | tickFails | cancelActive | consent _ _ | revoke | bind | wait _ | kill =>
    cases hs

theorem Inv.onAttempt (h : Inv s) {act : Act F} (hs : s.onAttempt i act = some s') : Inv s' := by
  unfold State.onAttempt at hs
  split at hs
  · next a hi => exact h.stepAttempt hi hs
  · cases hs

theorem Inv.step (h : Inv s) {act : Act F} (hs : Startup.step s act = some s') : Inv s' := by
  cases act with
  | tick =>
    dsimp only [Startup.step] at hs
    obtain ⟨_, hs⟩ := Option.ite_none_left_eq_some.mp hs
    split at hs
    case isTrue hon =>
      cases hs
      refine { h with good := fun j b hj => { h.good j b hj with }, ticking := fun t ht => ?_ }
      cases ht
      exact ⟨fun _ => ⟨hon, rfl⟩, nofun⟩
    case isFalse =>
      cases hs
      exact h.cancelActive
  | tickEnds targets =>
    dsimp only [Startup.step] at hs
    split at hs
    · next snapshot ht =>
      cases hs
      have hend := h.tickEnds (h.ticking snapshot ht) targets
      exact { hend with good := fun j b hj => { hend.good j b hj with }, ticking := nofun }
    · cases hs
  | tickFails =>
    dsimp only [Startup.step] at hs
    obtain ⟨_, rfl⟩ := guard_some hs
    exact { h with good := fun j b hj => { h.good j b hj with }, ticking := nofun }
  | cancelActive =>
    cases hs
    exact h.cancelActive
  | consent enabled moved =>
    cases hs
    refine h.consented ?_ fun hon hoff => ?_
    · split
      · exact Nat.le_succ _
      · exact Nat.le_refl _
    · rw [if_pos (Or.inl (by rw [hon, hoff]; nofun))]
      exact Nat.lt_succ_self _
  | revoke | bind =>
    cases hs
    exact h.consented (Nat.le_succ _) fun _ _ => Nat.lt_succ_self _
  | wait d =>
    dsimp only [Startup.step] at hs
    obtain ⟨hd, rfl⟩ := guard_some hs
    exact h.wait hd
  | kill =>
    cases hs
    exact h.interrupt.restart
  | checked j healthy | acquire j | refreshed j ready | activate j | streamEnds j
  | records j eligible | returns j | fails j | deliver j | closed j | callback j =>
    exact h.onAttempt hs

/-- In every run the probes do not overlap, record once and with consent, end their observations, and
those that end by themselves back off. -/
theorem probes_back_off (now : ℚ) (enabled : Bool) (generation : ℕ) (cluster : Bool) (s : State F)
    (hr : Reach step Free (init now enabled generation cluster) s) : Sound s Outcome.isOwn :=
  (hr.invariant (inv_init now enabled generation cluster) fun _ _ _ h _ hs => h.step hs).sound

/-! ## Three runs -/

/-- A probe raises, the process is killed, and after a minute the next probe records. -/
def retried : List (Act ℕ) :=
  [.tick, .tickEnds [7], .checked 0 true, .acquire 0, .refreshed 0 true, .activate 0, .fails 0,
    .closed 0, .callback 0, .kill, .wait 60, .tick, .tickEnds [7], .checked 1 true, .acquire 1,
    .refreshed 1 true, .activate 1, .streamEnds 1, .records 1 true, .returns 1, .closed 1]

def recordedSecond (s : State ℕ) : Bool := s.samples.length = 1 && s.log.length = 3

theorem probes_back_off_retried : ∃ s : State ℕ, Sound s Outcome.isOwn ∧ recordedSecond s = true := by
  have hrun : (replay step Free (init 0 true 1 true) retried).any recordedSecond = true := by
    decide +kernel
  obtain ⟨s, hr, hs⟩ := reach_any hrun
  exact ⟨s, probes_back_off 0 true 1 true s hr, hs⟩

/-- Consent is withdrawn during a probe, and given again. -/
def withdrawn : List (Act ℕ) :=
  [.tick, .tickEnds [7], .checked 0 true, .acquire 0, .refreshed 0 true, .consent false false,
    .cancelActive, .deliver 0, .closed 0, .callback 0, .consent true false, .tick, .tickEnds [7],
    .checked 1 true, .acquire 1, .refreshed 1 true]

/-- The process is killed during a probe. -/
def killed : List (Act ℕ) :=
  [.tick, .tickEnds [7], .checked 0 true, .acquire 0, .refreshed 0 true, .kill, .tick,
    .tickEnds [7], .checked 1 true, .acquire 1, .refreshed 1 true]

/-- The last probe was dispatched when the one before it ended, which set no deadline. -/
def atOnce (how : Outcome) (s : State ℕ) : Bool :=
  match s.log with
  | [.dispatched f t, .unsuccessful g t' how' none, .dispatched _ _] =>
    f = g && t = t' && how' = how
  | _ => false

theorem not_sound_of_atOnce {s : State ℕ} (h : atOnce how s) : ¬Sound s fun _ => true := by
  intro hs
  have hspaced := hs.spaced
  unfold atOnce at h
  split at h
  · next hlog =>
    rw [hlog] at hspaced
    obtain ⟨d, hd, _⟩ := hspaced.2.1 rfl
    cases hd
  · cases h

theorem probes_at_once :
    (∃ s : State ℕ, Reach step Free (init 0 true 1 true) s ∧ atOnce .cancelled s = true ∧
      ¬Sound s fun _ => true) ∧
    ∃ s : State ℕ, Reach step Free (init 0 true 1 true) s ∧ atOnce .killed s = true ∧
      ¬Sound s fun _ => true := by
  constructor
  · have hrun : (replay step Free (init 0 true 1 true) withdrawn).any (atOnce .cancelled) = true := by
      decide +kernel
    obtain ⟨s, hr, hs⟩ := reach_any hrun
    exact ⟨s, hr, hs, not_sound_of_atOnce hs⟩
  · have hrun : (replay step Free (init 0 true 1 true) killed).any (atOnce .killed) = true := by
      decide +kernel
    obtain ⟨s, hr, hs⟩ := reach_any hrun
    exact ⟨s, hr, hs, not_sound_of_atOnce hs⟩

end SparkDeck.Startup
