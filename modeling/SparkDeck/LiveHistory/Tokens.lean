import SparkDeck.LiveHistory.Steps

/-!
# Generated tokens

The buckets of a unit are to receive what each of its requests emits from the first tick that
observes it on. A tick that finds the windows of a request empty takes it for a prefill: it drops
what the request has emitted since the last tick and moves the baseline on. And a baseline that a
request leaves behind is taken for that of the next record with its identity.

* `cleanTokens` is the condition on a step: a request that is followed has tokens in its windows, or
  has emitted nothing since; and the baseline under the identity of a request that is not followed
  is not below its total, or its windows are empty.
* `tokens_conserved`: in a run of clean steps the tokens of a unit's buckets are those of the
  episodes in which its requests were observed; no token is in two buckets; and the accumulators do
  not fall.
* `tokens_lost`: a request emits while it is followed, its windows run empty, and a tick drops that.
-/

namespace SparkDeck.LiveHistory

open Transition

/-- The record gives the bucket what it has emitted since it was last observed. -/
def Series.gives (x : Series) (r : Record) : Bool :=
  match x.episodes.find? (Episode.follows r.rid) with
  | some e => r.state ≠ .prefill || r.totalTokens = e.last
  | none => r.state = .prefill || (Assoc.get x.previous r.id).all fun b => r.totalTokens ≤ b.2

/-- The condition on a step. -/
def cleanTokens (s : State) : Label → Bool
  | .end rid true =>
    (s.find rid).all fun r =>
      r.paused || (Assoc.get s.history.series r.unit).all fun x => x.gives r
  | .tick _ _ _ true =>
    s.active.all fun r => r.paused || (Assoc.get s.history.series r.unit).all fun x => x.gives r
  | _ => true

/-! ## Episodes -/

variable {e : Episode}

theorem follows_iff {rid : ℕ} : e.follows rid ↔ e.current ∧ e.rid = rid := by
  simp [Episode.follows]

theorem follows_extend (rid : ℕ) (r : Record) (e : Episode) :
    (e.extend r).follows rid = e.follows rid := by
  unfold Episode.extend
  split <;> rfl

theorem extend_other {r : Record} {rid : ℕ} (h : e.follows rid) (hne : rid ≠ r.rid) :
    e.extend r = e := by
  refine if_neg fun hr => hne ?_
  exact (follows_iff.mp h).2.symm.trans (follows_iff.mp hr).2

/-- The tokens that a record gives, and the episodes that it belongs to. -/
structure Gives (given : ℕ) (episodes : List Episode) (r : Record) : Prop where
  followed : ∀ e ∈ episodes, e.follows r.rid →
    e.last ≤ r.totalTokens ∧ given = r.totalTokens - e.last
  other : (∀ e ∈ episodes, e.follows r.rid = false) → given = 0

/-- A request has one current episode at most. -/
def Single (episodes : List Episode) : Prop :=
  ∀ rid, episodes.countP (Episode.follows rid) ≤ 1

variable {episodes : List Episode}

/-- The one current episode of a request goes on to its total. -/
theorem sum_extend {given : ℕ} {r : Record} (hone : episodes.countP (Episode.follows r.rid) ≤ 1)
    (hle : ∀ e ∈ episodes, e.first ≤ e.last) (h : Gives given episodes r) :
    ((episodes.map (Episode.extend r)).map Episode.tokens).sum =
      (episodes.map Episode.tokens).sum + given := by
  induction episodes with
  | nil => simp [h.other fun _ he => absurd he List.not_mem_nil]
  | cons e episodes ih =>
    have hle' : ∀ e ∈ episodes, e.first ≤ e.last := fun e he => hle e (List.mem_cons_of_mem _ he)
    cases hf : e.follows r.rid with
    | true =>
      rw [List.countP_cons, hf, if_pos rfl] at hone
      have hnone : ∀ e ∈ episodes, ¬ e.follows r.rid :=
        List.countP_eq_zero.mp (Nat.le_zero.mp (Nat.le_of_succ_le_succ hone))
      have hsame : episodes.map (Episode.extend r) = episodes :=
        (List.map_congr_left fun e he => if_neg (hnone e he)).trans (List.map_id _)
      obtain ⟨hlast, hgiven⟩ := h.followed e List.mem_cons_self hf
      have hfirst := hle e List.mem_cons_self
      have hext : e.extend r = { e with last := r.totalTokens } := if_pos hf
      rw [List.map_cons, hsame, hext]
      simp only [List.map_cons, List.sum_cons, Episode.tokens]
      omega
    | false =>
      have htail : Gives given episodes r := by
        refine ⟨fun e' he => h.followed e' (List.mem_cons_of_mem _ he), fun hall => h.other ?_⟩
        intro e' he
        obtain rfl | he := List.mem_cons.mp he
        · exact hf
        · exact hall e' he
      rw [List.countP_cons, hf, if_neg Bool.false_ne_true] at hone
      have hext : e.extend r = e := if_neg (by rw [hf]; exact Bool.false_ne_true)
      rw [List.map_cons, hext, List.map_cons, List.map_cons, List.sum_cons, List.sum_cons,
        ih hone hle' htail]
      omega

theorem countP_extend (rid : ℕ) (r : Record) (episodes : List Episode) :
    (episodes.map (Episode.extend r)).countP (Episode.follows rid) =
      episodes.countP (Episode.follows rid) := by
  rw [List.countP_map]
  exact List.countP_congr fun e _ => by rw [Function.comp, follows_extend]

/-- A total that is observed. -/
theorem sight_spec {given : ℕ} {r : Record} (hone : Single episodes)
    (hle : ∀ e ∈ episodes, e.first ≤ e.last) (h : Gives given episodes r) :
    ((Series.sight episodes r).map Episode.tokens).sum =
        (episodes.map Episode.tokens).sum + given ∧
      Single (Series.sight episodes r) ∧ (∀ e ∈ Series.sight episodes r, e.first ≤ e.last) ∧
      ∀ e ∈ Series.sight episodes r, e.current →
        (e.rid = r.rid ∧ e.last = r.totalTokens) ∨ (e.rid ≠ r.rid ∧ e ∈ episodes) := by
  unfold Series.sight
  split
  case isTrue hany =>
    refine ⟨sum_extend (hone r.rid) hle h, fun rid => (countP_extend rid r _).trans_le (hone rid),
      fun e he => ?_, fun e he hcurrent => ?_⟩
    · obtain ⟨e, hmem, rfl⟩ := List.mem_map.mp he
      unfold Episode.extend
      split
      case isTrue hf => exact (hle e hmem).trans (h.followed e hmem hf).1
      case isFalse => exact hle e hmem
    · obtain ⟨e, hmem, rfl⟩ := List.mem_map.mp he
      cases hf : e.follows r.rid with
      | true =>
        rw [show e.extend r = { e with last := r.totalTokens } from if_pos hf]
        exact Or.inl ⟨(follows_iff.mp hf).2, rfl⟩
      | false =>
        have hext : e.extend r = e := if_neg (by rw [hf]; exact Bool.false_ne_true)
        rw [hext] at hcurrent ⊢
        refine Or.inr ⟨fun hrid => ?_, hmem⟩
        rw [follows_iff.mpr ⟨hcurrent, hrid⟩] at hf
        cases hf
  case isFalse hany =>
    have hnone : ∀ e ∈ episodes, e.follows r.rid = false := fun e he =>
      Bool.eq_false_iff.mpr fun hf => hany (List.any_eq_true.mpr ⟨e, he, hf⟩)
    refine ⟨?_, fun rid => ?_, fun e he => ?_, fun e he hcurrent => ?_⟩
    · rw [h.other hnone]
      simp [Episode.tokens]
    · rw [List.countP_append]
      by_cases hrid : rid = r.rid
      · have hzero : episodes.countP (Episode.follows rid) = 0 :=
          List.countP_eq_zero.mpr fun e he => by rw [hrid, hnone e he]; exact Bool.false_ne_true
        rw [hzero, Nat.zero_add]
        exact List.countP_le_length
      · have hzero : [(⟨r.rid, r.totalTokens, r.totalTokens, true⟩ : Episode)].countP
            (Episode.follows rid) = 0 :=
          List.countP_eq_zero.mpr fun e he hf => by
            obtain rfl := List.mem_singleton.mp he
            exact hrid (follows_iff.mp hf).2.symm
        rw [hzero, Nat.add_zero]
        exact hone rid
    · obtain he | he := List.mem_append.mp he
      · exact hle e he
      · obtain rfl := List.mem_singleton.mp he
        exact le_rfl
    · obtain he | he := List.mem_append.mp he
      · refine Or.inr ⟨fun hrid => ?_, he⟩
        have hf := hnone e he
        rw [follows_iff.mpr ⟨hcurrent, hrid⟩] at hf
        cases hf
      · obtain rfl := List.mem_singleton.mp he
        exact Or.inl ⟨rfl, rfl⟩

/-- Another request's part in the episodes is as it was. -/
theorem Gives.sight {given : ℕ} {q r : Record} (h : Gives given episodes q) (hne : q.rid ≠ r.rid) :
    Gives given (Series.sight episodes r) q := by
  have hmem : ∀ e, e.follows q.rid → (e ∈ Series.sight episodes r ↔ e ∈ episodes) := by
    intro e hf
    unfold Series.sight
    split
    case isTrue =>
      constructor
      · intro he
        obtain ⟨e', he', rfl⟩ := List.mem_map.mp he
        rw [follows_extend] at hf
        rw [extend_other hf hne]
        exact he'
      · exact fun he => List.mem_map.mpr ⟨e, he, extend_other hf hne⟩
    case isFalse =>
      refine ⟨fun he => (List.mem_append.mp he).resolve_right fun hnew => ?_,
        fun he => List.mem_append_left _ he⟩
      obtain rfl := List.mem_singleton.mp hnew
      exact hne (follows_iff.mp hf).2.symm
  refine ⟨fun e he hf => h.followed e ((hmem e hf).mp he) hf, fun hall => h.other fun e he => ?_⟩
  cases hf : e.follows q.rid with
  | false => rfl
  | true => rw [← hf]; exact hall e ((hmem e hf).mpr he)

/-- What a tick observes, record by record. -/
theorem foldl_sight_spec {given : Record → ℕ} :
    ∀ (rs : List Record) (episodes : List Episode), (rs.map Record.rid).Nodup →
      Single episodes → (∀ e ∈ episodes, e.first ≤ e.last) →
      (∀ r ∈ rs, Gives (given r) episodes r) →
      ((rs.foldl Series.sight episodes).map Episode.tokens).sum =
          (episodes.map Episode.tokens).sum + (rs.map given).sum ∧
        Single (rs.foldl Series.sight episodes) ∧
        (∀ e ∈ rs.foldl Series.sight episodes, e.first ≤ e.last) ∧
        ∀ e ∈ rs.foldl Series.sight episodes, e.current →
          (∃ r ∈ rs, e.rid = r.rid ∧ e.last = r.totalTokens) ∨
            ((∀ r ∈ rs, e.rid ≠ r.rid) ∧ e ∈ episodes)
  | [], _, _, hone, hle, _ =>
    ⟨rfl, hone, hle, fun e he _ => Or.inr ⟨fun _ h => absurd h List.not_mem_nil, he⟩⟩
  | r :: rs, episodes, hnodup, hone, hle, h => by
    obtain ⟨hr, hnodup⟩ := List.nodup_cons.mp hnodup
    obtain ⟨hsum, hone', hle', hlast⟩ := sight_spec hone hle (h r List.mem_cons_self)
    obtain ⟨hsum', hone'', hle'', hlast'⟩ := foldl_sight_spec rs _ hnodup hone' hle' fun q hq =>
      (h q (List.mem_cons_of_mem r hq)).sight fun heq => hr (List.mem_map.mpr ⟨q, hq, heq⟩)
    refine ⟨?_, hone'', hle'', fun e he hcurrent => ?_⟩
    · rw [List.foldl_cons, hsum', hsum, List.map_cons, List.sum_cons]
      omega
    · obtain ⟨q, hq, heq⟩ | ⟨hne, he'⟩ := hlast' e he hcurrent
      · exact Or.inl ⟨q, List.mem_cons_of_mem r hq, heq⟩
      · obtain heq | ⟨hner, he''⟩ := hlast e he' hcurrent
        · exact Or.inl ⟨r, List.mem_cons_self, heq⟩
        · refine Or.inr ⟨fun q hq => ?_, he''⟩
          obtain rfl | hq := List.mem_cons.mp hq
          · exact hner
          · exact hne q hq

theorem mem_lapse {gone : ℕ → Bool} (he : e ∈ Series.lapse gone episodes)
    (hcurrent : e.current = true) : e ∈ episodes ∧ gone e.rid = false := by
  obtain ⟨e', he', rfl⟩ := List.mem_map.mp he
  cases hg : gone e'.rid with
  | true =>
    rw [if_pos hg] at hcurrent
    cases hcurrent
  | false =>
    rw [if_neg Bool.false_ne_true]
    exact ⟨he', hg⟩

/-- Episodes that are over keep their tokens. -/
theorem lapse_spec (gone : ℕ → Bool) (hone : Single episodes)
    (hle : ∀ e ∈ episodes, e.first ≤ e.last) :
    ((Series.lapse gone episodes).map Episode.tokens).sum = (episodes.map Episode.tokens).sum ∧
      Single (Series.lapse gone episodes) ∧ ∀ e ∈ Series.lapse gone episodes, e.first ≤ e.last := by
  refine ⟨?_, fun rid => ?_, fun e he => ?_⟩
  · unfold Series.lapse
    rw [List.map_map]
    refine congrArg List.sum (List.map_congr_left fun e _ => ?_)
    dsimp only [Function.comp]
    split <;> rfl
  · unfold Series.lapse
    rw [List.countP_map]
    refine le_trans (List.countP_mono_left fun e _ hf => ?_) (hone rid)
    dsimp only [Function.comp] at hf
    split at hf
    case isTrue => cases hf
    case isFalse => exact hf
  · obtain ⟨e', he', rfl⟩ := List.mem_map.mp he
    split
    · exact hle e' he'
    · exact hle e' he'

/-! ## The invariant of a series -/

/-- A bucket has the tokens of its parts. -/
def Bucket.Balanced (b : Bucket) : Prop := b.tokens = (b.parts.map Part.tokens).sum

structure TokensOk (active : List Record) (next : ℕ) (x : Series) : Prop where
  pending : x.pending = .empty
  total : x.tokens = (x.episodes.map Episode.tokens).sum
  single : Single x.episodes
  ordered : ∀ e ∈ x.episodes, e.first ≤ e.last
  /-- A current episode is of a request that is there, and has its baseline. -/
  own : ∀ e ∈ x.episodes, e.current → ∃ r ∈ active, r.rid = e.rid ∧
    e.last ≤ r.totalTokens ∧ ∃ state, Assoc.get x.previous r.id = some (state, e.last)
  opened : x.opened.Balanced
  closed : ∀ b ∈ x.closed, b.2.Balanced
  parts : ∀ p ∈ x.parts, p.rid < next

theorem new_tokensOk (active : List Record) (next : ℕ) (now : ℚ) :
    TokensOk active next (Series.new now) where
  pending := rfl
  total := rfl
  single := fun _ => Nat.zero_le 1
  ordered := fun _ h => absurd h List.not_mem_nil
  own := fun _ h => absurd h List.not_mem_nil
  opened := rfl
  closed := fun _ h => absurd h List.not_mem_nil
  parts := fun _ h => absurd h List.not_mem_nil

theorem TokensOk.mono {active active' : List Record} {next next' : ℕ} {x : Series}
    (h : TokensOk active next x) (hle : next ≤ next')
    (hsub : ∀ q ∈ active, ∃ r ∈ active', Written q r) : TokensOk active' next' x :=
  { h with
    own := by
      intro e he hcurrent
      obtain ⟨q, hq, hrid, hlast, state, hstate⟩ := h.own e he hcurrent
      obtain ⟨r, hr, hw⟩ := hsub q hq
      exact ⟨r, hr, hw.rid.trans hrid, hlast.trans hw.totalTokens, state, hw.id ▸ hstate⟩
    parts := fun p hp => (h.parts p hp).trans_le hle }

section Giving

variable {s : State} {x : Series} {r : Record}

/-- The current episode of a record that is there has its baseline. -/
theorem own_previous (hwf : Wf s) (hx : TokensOk s.active s.next x) (hr : r ∈ s.active)
    (he : e ∈ x.episodes) (hf : e.follows r.rid) :
    e.last ≤ r.totalTokens ∧ ∃ state, Assoc.get x.previous r.id = some (state, e.last) := by
  obtain ⟨hcurrent, hrid⟩ := follows_iff.mp hf
  obtain ⟨q, hq, hqr, hlast, hprevious⟩ := hx.own e he hcurrent
  obtain rfl := hwf.eq_of_rid hq hr (hqr.trans hrid)
  exact ⟨hlast, hprevious⟩

/-- A record that gives what it should is in an episode, or gives nothing. -/
theorem part_gives (hwf : Wf s) (hx : TokensOk s.active s.next x) (hr : r ∈ s.active)
    (hc : x.gives r) :
    Gives ((x.part r).elim 0 Part.tokens) x.episodes r ∧
      ∀ p, x.part r = some p → ∃ e ∈ x.episodes, e.follows r.rid ∧
        e.last < r.totalTokens ∧ p = ⟨r.rid, e.last, r.totalTokens⟩ := by
  cases hfind : x.episodes.find? (Episode.follows r.rid) with
  | some e =>
    have he := List.mem_of_find?_eq_some hfind
    have hf : e.follows r.rid := List.find?_some hfind
    obtain ⟨hlast, state, hprevious⟩ := own_previous hwf hx hr he hf
    have hpart : x.part r = if r.state ≠ .prefill ∧ e.last < r.totalTokens then
        some ⟨r.rid, e.last, r.totalTokens⟩ else none := by
      unfold Series.part
      rw [hprevious]
    unfold Series.gives at hc
    rw [hfind] at hc
    have hgiven : (x.part r).elim 0 Part.tokens = r.totalTokens - e.last := by
      rw [hpart]
      split
      case isTrue => rfl
      case isFalse hno =>
        obtain hstate | hsame := Bool.or_eq_true_iff.mp hc
        · have hge : ¬ e.last < r.totalTokens := fun hlt => hno ⟨of_decide_eq_true hstate, hlt⟩
          show 0 = _
          omega
        · rw [of_decide_eq_true hsame, Nat.sub_self]
          rfl
    refine ⟨⟨fun e' he' hf' => ?_, fun hall => ?_⟩, fun p hp => ?_⟩
    · -- there is one current episode of the request
      obtain ⟨hlast', state', hprevious'⟩ := own_previous hwf hx hr he' hf'
      rw [hprevious] at hprevious'
      obtain ⟨-, heq⟩ := Prod.mk.inj (Option.some.inj hprevious')
      exact ⟨hlast', heq ▸ hgiven⟩
    · rw [hall e he] at hf
      cases hf
    · rw [hpart] at hp
      obtain ⟨hyes, rfl⟩ := guard_some hp
      exact ⟨e, he, hf, hyes.2, rfl⟩
  | none =>
    have hnone : ∀ e ∈ x.episodes, ¬ e.follows r.rid := List.find?_eq_none.mp hfind
    have hpart : x.part r = none := by
      unfold Series.gives at hc
      rw [hfind] at hc
      unfold Series.part
      cases hg : Assoc.get x.previous r.id with
      | none => rfl
      | some b =>
        refine if_neg fun h => ?_
        obtain hstate | hle := Bool.or_eq_true_iff.mp hc
        · exact h.1 (of_decide_eq_true hstate)
        · rw [hg] at hle
          exact absurd h.2 (Nat.not_lt.mpr (of_decide_eq_true hle))
    rw [hpart]
    exact ⟨⟨fun e he hf => absurd hf (hnone e he), fun _ => rfl⟩, fun p hp => by cases hp⟩

end Giving

/-- The parts of a series after a tick or an end hook are those of before, and what is given by the
records of its unit. -/
structure Given (active : List Record) (unit : String) (x : Series) (new : List Part) : Prop where
  part : ∀ p ∈ new, ∃ r ∈ active, r.unit = unit ∧ ∃ e ∈ x.episodes, e.current ∧
    e.rid = r.rid ∧ e.last < r.totalTokens ∧ p = ⟨r.rid, e.last, r.totalTokens⟩
  apart : new.Pairwise fun p q => p.rid ≠ q.rid

/-- What a tick makes of a series. -/
theorem tick_tokensOk {s : State} (hwf : Wf s) {unit : String} {x y : Series}
    (hx : TokensOk s.active s.next x)
    (hc : ∀ r ∈ History.records s.active unit, x.gives r)
    (h : Series.Ticked (History.records s.active unit) x y) :
    TokensOk s.active s.next y ∧
      (∃ new, y.parts = x.parts ++ new ∧ Given s.active unit x new) ∧
      ∀ e ∈ y.episodes, e.current → ∃ r ∈ s.active, r.rid = e.rid ∧
        e.last = r.totalTokens := by
  have hfold := Series.ticked_folded hx.pending h
  generalize hrs : History.records s.active unit = rs at hc h hfold
  have hsub : ∀ r ∈ rs, r ∈ s.active ∧ r.unit = unit := by
    intro r hr
    obtain ⟨hr, -, hunit⟩ := History.mem_records.mp (hrs ▸ hr)
    exact ⟨hr, hunit⟩
  have hrids : (rs.map Record.rid).Nodup := by
    rw [← hrs]
    exact (List.filter_sublist.map Record.rid).nodup hwf.rids
  have hids : (rs.map Record.id).Nodup := by
    rw [← hrs]
    exact (List.filter_sublist.map Record.id).nodup hwf.ids
  have hgives := fun r hr => part_gives hwf hx (hsub r hr).1 (hc r hr)
  -- the episodes of requests that are not observed are over
  obtain ⟨hsum, hone, hle⟩ := lapse_spec (fun rid => !rs.any fun r => r.rid = rid) hx.single
    hx.ordered
  have hkept : ∀ r ∈ rs, ∀ e ∈ x.episodes, e.follows r.rid →
      e ∈ Series.lapse (fun rid => !rs.any fun r => r.rid = rid) x.episodes := by
    intro r hr e he hf
    refine List.mem_map.mpr ⟨e, he, if_neg ?_⟩
    have hany : (rs.any fun q => q.rid = e.rid) = true :=
      List.any_eq_true.mpr ⟨r, hr, decide_eq_true (follows_iff.mp hf).2.symm⟩
    dsimp only
    rw [hany]
    exact Bool.false_ne_true
  have hlapsed : ∀ r ∈ rs, Gives ((x.part r).elim 0 Part.tokens)
      (Series.lapse (fun rid => !rs.any fun r => r.rid = rid) x.episodes) r := by
    intro r hr
    obtain ⟨⟨hfollowed, hother⟩, -⟩ := hgives r hr
    refine ⟨fun e he hf => ?_, fun hall => hother fun e he => ?_⟩
    · exact hfollowed e (mem_lapse he (follows_iff.mp hf).1).1 hf
    · cases hf : e.follows r.rid with
      | false => rfl
      | true => rw [← hf]; exact hall e (hkept r hr e he hf)
  obtain ⟨htotal, hone', hle', hlast⟩ := foldl_sight_spec rs _ hrids hone hle hlapsed
  have hepisodes : y.episodes = rs.foldl Series.sight
      (Series.lapse (fun rid => !rs.any fun r => r.rid = rid) x.episodes) := hfold.episodes
  have hcurrent : ∀ e ∈ y.episodes, e.current →
      ∃ r ∈ rs, e.rid = r.rid ∧ e.last = r.totalTokens := by
    intro e he hcur
    rw [hepisodes] at he
    obtain hr | ⟨hne, he⟩ := hlast e he hcur
    · exact hr
    · have hgone := (mem_lapse he hcur).2
      rw [Bool.not_eq_false'] at hgone
      obtain ⟨r, hr, hrid⟩ := List.any_eq_true.mp hgone
      exact absurd (of_decide_eq_true hrid).symm (hne r hr)
  have hgathered : (x.note rs).gathered rs = (rs.map fun r => (x.part r).elim 0 Part.tokens).sum := by
    show x.gathered rs = _
    rw [Series.gathered_eq]
    clear hrs hsub hrids hids hgives hsum hone hle hkept hlapsed htotal hone' hle' hlast hepisodes
      hcurrent hfold h hc
    induction rs with
    | nil => rfl
    | cons r rs ih =>
      rw [List.filterMap_cons, List.map_cons, List.sum_cons, ← ih]
      cases x.part r with
      | none => exact (Nat.zero_add _).symm
      | some p => rfl
  have hnew : Given s.active unit x (rs.filterMap x.part) := by
    refine ⟨fun p hp => ?_, ?_⟩
    · obtain ⟨r, hr, hpart⟩ := List.mem_filterMap.mp hp
      obtain ⟨e, he, hf, hlt, rfl⟩ := (hgives r hr).2 p hpart
      obtain ⟨hcur, hrid⟩ := follows_iff.mp hf
      exact ⟨r, (hsub r hr).1, (hsub r hr).2, e, he, hcur, hrid, hlt, rfl⟩
    · refine List.Pairwise.filterMap x.part (fun r q hne p hp p' hp' => ?_)
        (List.pairwise_map.mp hrids)
      rw [Series.part_rid hp, Series.part_rid hp']
      exact hne
  have hparts : y.parts = x.parts ++ rs.filterMap x.part := by
    rw [hfold.parts]
    exact (List.append_assoc ..).symm
  obtain ⟨b, hb1, hb2, -, hb4, hclosed⟩ := Series.ticked_bucket hx.pending h
  have hbalanced : b.Balanced := by
    have hopened := hx.opened
    have hadded := Series.gathered_eq x rs
    unfold Bucket.Balanced Bucket.tokens at hopened ⊢
    unfold Series.gathered at hadded
    rw [hb1, hb2, hb4, List.map_append, List.sum_append]
    omega
  refine ⟨⟨hfold.pending, ?_, ?_, ?_, ?_, ?_, ?_, ?_⟩, ⟨_, hparts, hnew⟩, fun e he hcur => ?_⟩
  · rw [hfold.tokens, hgathered, hepisodes, htotal, hsum, ← hx.total]
    rfl
  · exact hepisodes ▸ hone'
  · exact hepisodes ▸ hle'
  · intro e he hcur
    obtain ⟨r, hr, hrid, hlast⟩ := hcurrent e he hcur
    refine ⟨r, (hsub r hr).1, hrid.symm, hlast.le, r.state, ?_⟩
    rw [hfold.previous, hlast]
    refine (Assoc.get_eq_some_iff ?_).mpr (List.mem_map.mpr ⟨r, hr, rfl⟩)
    rw [List.map_map]
    exact hids
  · obtain ⟨-, ho⟩ | ⟨-, -, ho⟩ := hclosed
    · exact ho ▸ hbalanced
    · rw [ho]
      rfl
  · obtain ⟨hcl, -⟩ | ⟨closedAt, hcl, -⟩ := hclosed
    · exact hcl ▸ hx.closed
    · rw [hcl]
      intro c hc
      obtain hc | hc := List.mem_append.mp hc
      · exact hx.closed c hc
      · rw [List.mem_singleton.mp hc]
        exact hbalanced
  · rw [hparts]
    intro p hp
    obtain hp | hp := List.mem_append.mp hp
    · exact hx.parts p hp
    · obtain ⟨r, hr, -, e, -, -, -, -, rfl⟩ := hnew.part p hp
      exact hwf.lt r hr
  · obtain ⟨r, hr, hrid, hlast⟩ := hcurrent e he hcur
    exact ⟨r, (hsub r hr).1, hrid.symm, hlast⟩

/-- The series without the episodes of a request that is gone. -/
def Series.without (rid : ℕ) (x : Series) : Series :=
  { x with episodes := Series.lapse (fun i => i = rid) x.episodes }

theorem mem_without {x : Series} {rid : ℕ} (he : e ∈ (x.without rid).episodes)
    (hcurrent : e.current) : e ∈ x.episodes ∧ e.rid ≠ rid := by
  have hlapse : e ∈ Series.lapse (fun i => decide (i = rid)) x.episodes := he
  obtain ⟨he, hgone⟩ := mem_lapse hlapse hcurrent
  exact ⟨he, of_decide_eq_false hgone⟩

/-- A series that the end hook leaves as it is. -/
theorem without_tokensOk {active : List Record} {next : ℕ} {x : Series}
    (hx : TokensOk active next x) (rid : ℕ) :
    TokensOk (active.filter fun q => q.rid ≠ rid) next (x.without rid) := by
  obtain ⟨hsum, hone, hle⟩ := lapse_spec (fun i => decide (i = rid)) hx.single hx.ordered
  refine ⟨hx.pending, hx.total.trans hsum.symm, hone, hle, fun e he hcurrent => ?_, hx.opened,
    hx.closed, hx.parts⟩
  obtain ⟨he, hne⟩ := mem_without he hcurrent
  obtain ⟨q, hq, hrid, hrest⟩ := hx.own e he hcurrent
  exact ⟨q, List.mem_filter.mpr ⟨hq, decide_eq_true (hrid ▸ hne)⟩, hrid, hrest⟩

/-- The episodes of other requests are as they were. -/
theorem end_episodes {x : Series} {r : Record} (hp : x.pending = .empty)
    (he : e ∈ (((x.noteEnd r).finish r).without r.rid).episodes) (hcurrent : e.current) :
    e ∈ x.episodes ∧ e.rid ≠ r.rid := by
  obtain ⟨he, hne⟩ := mem_without he hcurrent
  rw [(Series.finish_spec r hp).episodes] at he
  obtain ⟨e', he', rfl⟩ := List.mem_map.mp he
  have hsame : e'.extend r = e' := by
    refine if_neg fun hf => hne ?_
    unfold Episode.extend
    rw [if_pos hf]
    exact (follows_iff.mp hf).2
  rw [hsame] at hne ⊢
  exact ⟨he', hne⟩

/-- What the end hook makes of the series of a record. -/
theorem end_tokensOk {s : State} (hwf : Wf s) {x : Series} {r : Record} (hr : r ∈ s.active)
    (hx : TokensOk s.active s.next x) (hc : x.gives r) :
    TokensOk (s.active.filter fun q => q.rid ≠ r.rid) s.next
        (((x.noteEnd r).finish r).without r.rid) ∧
      ∃ new, ((x.noteEnd r).finish r).parts = x.parts ++ new ∧ Given s.active r.unit x new ∧
        ∀ p ∈ new, p.rid = r.rid := by
  have hend := Series.finish_spec r hx.pending
  obtain ⟨c, hc1, hc2, hc3, -, hc5, hc6⟩ := Series.finish_bucket r hx.pending
  obtain ⟨hgives, hpart⟩ := part_gives hwf hx hr hc
  have hnew : Given s.active r.unit x (x.part r).toList := by
    refine ⟨fun p hp => ?_, ?_⟩
    · obtain ⟨e, he, hf, hlt, rfl⟩ := hpart p (Option.mem_toList.mp hp)
      obtain ⟨hcur, hrid⟩ := follows_iff.mp hf
      exact ⟨r, hr, rfl, e, he, hcur, hrid, hlt, rfl⟩
    · cases x.part r with
      | none => exact List.Pairwise.nil
      | some p => exact List.pairwise_singleton _ p
  have hsum := sum_extend (hx.single r.rid) hx.ordered hgives
  have hone : Single (x.episodes.map (Episode.extend r)) := fun rid =>
    (countP_extend rid r _).trans_le (hx.single rid)
  have hle : ∀ e ∈ x.episodes.map (Episode.extend r), e.first ≤ e.last := by
    intro e he
    obtain ⟨e, hmem, rfl⟩ := List.mem_map.mp he
    unfold Episode.extend
    split
    case isTrue hf => exact (hx.ordered e hmem).trans (hgives.followed e hmem hf).1
    case isFalse => exact hx.ordered e hmem
  obtain ⟨hsum', hone', hle'⟩ := lapse_spec (fun i => decide (i = r.rid)) hone hle
  have hepisodes : (((x.noteEnd r).finish r).without r.rid).episodes =
      Series.lapse (fun i => decide (i = r.rid)) (x.episodes.map (Episode.extend r)) :=
    congrArg _ hend.episodes
  refine ⟨⟨hend.pending, ?_, hepisodes ▸ hone', hepisodes ▸ hle', fun e he hcurrent => ?_, ?_,
    ?_, ?_⟩, _, hend.parts, hnew, fun p hp => Series.part_rid (Option.mem_toList.mp hp)⟩
  · rw [hepisodes, hsum', hsum, ← hx.total]
    exact hend.tokens
  · obtain ⟨he', hne⟩ := end_episodes hx.pending he hcurrent
    obtain ⟨q, hq, hrid, hlast, hprevious⟩ := hx.own e he' hcurrent
    have hqr : q.rid ≠ r.rid := hrid ▸ hne
    have hid : q.id ≠ r.id := fun hid => hqr (congrArg Record.rid (hwf.eq_of_id hq hr hid))
    refine ⟨q, List.mem_filter.mpr ⟨hq, decide_eq_true hqr⟩, hrid, hlast, ?_⟩
    show ∃ state, Assoc.get ((x.noteEnd r).finish r).previous q.id = some (state, e.last)
    rw [hend.previous, Assoc.get_erase_ne hid]
    exact hprevious
  · have hopened := hx.opened
    show Bucket.Balanced ((x.noteEnd r).finish r).opened
    unfold Bucket.Balanced Bucket.tokens at hopened ⊢
    rw [hc2, hc3, hc5, List.map_append, List.sum_append]
    have htail : ((x.part r).toList.map Part.tokens).sum = (x.part r).elim 0 Part.tokens := by
      cases x.part r <;> simp
    omega
  · show ∀ b ∈ ((x.noteEnd r).finish r).closed, b.2.Balanced
    rw [hc6]
    exact hx.closed
  · show ∀ p ∈ ((x.noteEnd r).finish r).parts, p.rid < s.next
    rw [hend.parts]
    intro p hp
    obtain hp | hp := List.mem_append.mp hp
    · exact hx.parts p hp
    · rw [Series.part_rid (Option.mem_toList.mp hp)]
      exact hwf.lt r hr

/-! ## The invariant of a state -/

/-- No token is in two buckets, and none is of a request that has not emitted it. -/
structure Apart (s : State) : Prop where
  emitted : ∀ r ∈ s.active, ∀ x ∈ s.history.series, ∀ p ∈ x.2.parts, p.rid = r.rid →
    p.last ≤ r.totalTokens
  before : ∀ x ∈ s.history.series, ∀ e ∈ x.2.episodes, e.current →
    ∀ y ∈ s.history.series, ∀ p ∈ y.2.parts, p.rid = e.rid → p.last ≤ e.last
  within : ∀ x ∈ s.history.series, x.2.parts.Pairwise fun p q => p.rid = q.rid → p.last ≤ q.first
  across : ∀ x ∈ s.history.series, ∀ y ∈ s.history.series, x.1 ≠ y.1 →
    ∀ p ∈ x.2.parts, ∀ q ∈ y.2.parts, p.rid = q.rid → p.last ≤ q.first ∨ q.last ≤ p.first

/-- Every series is one of before, or a new one, with what its records gave. -/
structure Follows (s t : State) : Prop where
  active : ∀ r ∈ t.active, r ∈ s.active
  series : ∀ y ∈ t.history.series, ∃ x : Series,
    ((y.1, x) ∈ s.history.series ∨ (x.parts = [] ∧ x.episodes = [])) ∧
    ∃ new, y.2.parts = x.parts ++ new ∧ Given s.active y.1 x new
  /-- Whatever is followed is followed up to its total, or as before. -/
  current : ∀ y ∈ t.history.series, ∀ e ∈ y.2.episodes, e.current →
    (∃ r ∈ t.active, r.rid = e.rid ∧ e.last = r.totalTokens) ∨
      ∃ x ∈ s.history.series, e ∈ x.2.episodes ∧ ∀ z ∈ t.history.series, ∀ p ∈ z.2.parts,
        p.rid = e.rid → ∃ x ∈ s.history.series, p ∈ x.2.parts

theorem Follows.old {s t : State} (h : Follows s t) {y : String × Series}
    (hy : y ∈ t.history.series) {p : Part} (hp : p ∈ y.2.parts) :
    (∃ x, (y.1, x) ∈ s.history.series ∧ p ∈ x.parts) ∨
      ∃ x r e, (y.1, x) ∈ s.history.series ∧ r ∈ s.active ∧ r.unit = y.1 ∧ e ∈ x.episodes ∧
        e.current ∧ e.rid = r.rid ∧ e.last < r.totalTokens ∧
        p = ⟨r.rid, e.last, r.totalTokens⟩ := by
  obtain ⟨x, hx, new, hparts, hnew⟩ := h.series y hy
  rw [hparts] at hp
  obtain hx | ⟨hnil, hnone⟩ := hx
  · obtain hp | hp := List.mem_append.mp hp
    · exact Or.inl ⟨x, hx, hp⟩
    · obtain ⟨r, hr, hunit, e, he, hrest⟩ := hnew.part p hp
      exact Or.inr ⟨x, r, e, hx, hr, hunit, he, hrest⟩
  · obtain hp | hp := List.mem_append.mp hp
    · rw [hnil] at hp
      cases hp
    · obtain ⟨r, -, -, e, he, -⟩ := hnew.part p hp
      rw [hnone] at he
      cases he

theorem Apart.follows {s t : State} (hwf : Wf s) (ha : Apart s) (h : Follows s t) : Apart t := by
  have hemitted : ∀ r ∈ t.active, ∀ x ∈ t.history.series, ∀ p ∈ x.2.parts, p.rid = r.rid →
      p.last ≤ r.totalTokens := by
    intro r hr y hy p hp hrid
    obtain ⟨x, hx, hpx⟩ | ⟨x, q, e, -, hq, -, -, -, -, -, rfl⟩ := h.old hy hp
    · exact ha.emitted r (h.active r hr) _ hx p hpx hrid
    · rw [hwf.eq_of_rid hq (h.active r hr) hrid]
  refine ⟨hemitted, fun y hy e he hcurrent z hz p hp hrid => ?_, fun y hy => ?_,
    fun y hy z hz hne p hp q hq hrid => ?_⟩
  · obtain ⟨r, hr, hre, hlast⟩ | ⟨x, hx, hex, hold⟩ := h.current y hy e he hcurrent
    · rw [hlast]
      exact hemitted r hr z hz p hp (hrid.trans hre.symm)
    · obtain ⟨w, hw, hpw⟩ := hold z hz p hp hrid
      exact ha.before x hx e hex hcurrent w hw p hpw hrid
  · obtain ⟨x, hx, new, hparts, hnew⟩ := h.series y hy
    have hwithin : x.parts.Pairwise fun p q => p.rid = q.rid → p.last ≤ q.first := by
      obtain hx | ⟨hnil, -⟩ := hx
      · exact ha.within _ hx
      · rw [hnil]
        exact List.Pairwise.nil
    rw [hparts]
    refine List.pairwise_append.mpr ⟨hwithin, hnew.apart.imp fun hne heq => absurd heq hne, ?_⟩
    intro p hp q hq hrid
    obtain ⟨r, -, -, e, he, hcurrent, her, -, rfl⟩ := hnew.part q hq
    obtain hx | ⟨hnil, -⟩ := hx
    · exact ha.before _ hx e he hcurrent _ hx p hp (hrid.trans her.symm)
    · rw [hnil] at hp
      cases hp
  · obtain ⟨x, hx, hpx⟩ | ⟨x, r, e, hx, hr, hunit, he, hcurrent, her, -, rfl⟩ := h.old hy hp
    · obtain ⟨w, hw, hqw⟩ | ⟨w, r, e, hw, -, -, he, hcurrent, her, -, rfl⟩ := h.old hz hq
      · exact ha.across _ hx _ hw hne p hpx q hqw hrid
      · exact Or.inl (ha.before _ hw e he hcurrent _ hx p hpx (hrid.trans her.symm))
    · obtain ⟨w, hw, hqw⟩ | ⟨w, r', e', -, hr', hunit', -, -, -, -, rfl⟩ := h.old hz hq
      · exact Or.inr (ha.before _ hx e he hcurrent _ hw q hqw (hrid.symm.trans her.symm))
      · exact absurd (hunit.symm.trans ((congrArg Record.unit (hwf.eq_of_rid hr hr' hrid)).trans
          hunit')) hne

structure Tokens (s : State) : Prop where
  series : ∀ x ∈ s.history.series, TokensOk s.active s.next x.2
  apart : Apart s

theorem init_tokens : Tokens init where
  series := fun _ h => absurd h List.not_mem_nil
  apart := ⟨fun _ h => absurd h List.not_mem_nil, fun _ h => absurd h List.not_mem_nil,
    fun _ h => absurd h List.not_mem_nil, fun _ h => absurd h List.not_mem_nil⟩

/-- Calls that leave the series as they are. -/
theorem Tokens.keep {s t : State} (h : Tokens s) (hseries : t.history.series = s.history.series)
    (hnext : s.next ≤ t.next) (hsub : ∀ q ∈ s.active, ∃ r ∈ t.active, Written q r)
    (hfrom : ∀ r ∈ t.active, (∃ q ∈ s.active, Written q r) ∨ s.next ≤ r.rid) : Tokens t := by
  refine ⟨hseries ▸ fun x hx => (h.series x hx).mono hnext hsub, ?_, ?_, ?_, ?_⟩
  · rw [hseries]
    intro r hr x hx p hp hrid
    obtain ⟨q, hq, hw⟩ | hge := hfrom r hr
    · exact (h.apart.emitted q hq x hx p hp (hrid.trans hw.rid)).trans hw.totalTokens
    · exact absurd ((h.series x hx).parts p hp) (by omega)
  · rw [hseries]
    exact h.apart.before
  · rw [hseries]
    exact h.apart.within
  · rw [hseries]
    exact h.apart.across

theorem given_nil (active : List Record) (unit : String) (x : Series) : Given active unit x [] :=
  ⟨fun _ h => absurd h List.not_mem_nil, List.Pairwise.nil⟩

/-- The series after `_track_end`. -/
theorem end_tokens {s : State} {h : History} (hwf : Wf s) (ht : Tokens s) {r : Record}
    (hseries : ∀ y ∈ h.series, ∃ x, (y.1, x) ∈ s.history.series ∧
      TokensOk (s.active.filter fun q => q.rid ≠ r.rid) s.next (y.2.without r.rid) ∧
      (∀ e ∈ (y.2.without r.rid).episodes, e.current → e ∈ x.episodes) ∧
      ∃ new, y.2.parts = x.parts ++ new ∧ Given s.active y.1 x new ∧ ∀ p ∈ new, p.rid = r.rid) :
    Tokens { s with
      active := s.active.filter fun q => q.rid ≠ r.rid
      history := h.leave r.rid } := by
  have hmem : ∀ y ∈ (h.leave r.rid).series, ∃ z, (y.1, z) ∈ h.series ∧ y.2 = z.without r.rid :=
    fun y hy => History.mem_leave.mp hy
  refine ⟨fun y hy => ?_, ht.apart.follows hwf ⟨fun q hq => (List.mem_filter.mp hq).1,
    fun y hy => ?_, fun y hy e he hcurrent => ?_⟩⟩
  · obtain ⟨z, hz, heq⟩ := hmem y hy
    obtain ⟨x, -, hok, -⟩ := hseries _ hz
    exact heq ▸ hok
  · obtain ⟨z, hz, heq⟩ := hmem y hy
    obtain ⟨x, hx, -, -, new, hparts, hnew, -⟩ := hseries _ hz
    exact ⟨x, Or.inl hx, new, heq ▸ hparts, hnew⟩
  · obtain ⟨z, hz, heq⟩ := hmem y hy
    rw [heq] at he
    obtain ⟨x, hx, -, hold, -⟩ := hseries _ hz
    refine Or.inr ⟨_, hx, hold e he hcurrent, fun w hw p hp hrid => ?_⟩
    obtain ⟨v, hv, heqv⟩ := hmem w hw
    obtain ⟨u, hu, -, -, new, hparts, -, hrids⟩ := hseries _ hv
    have hp : p ∈ u.parts ++ new := hparts ▸ (heqv ▸ hp : p ∈ (v.without r.rid).parts)
    refine ⟨_, hu, (List.mem_append.mp hp).resolve_right fun hnew => ?_⟩
    exact (mem_without he hcurrent).2 (hrid.symm.trans (hrids p hnew))

theorem step_tokens {s t : State} {l : Label} (hwf : Wf s) (ht : Tokens s)
    (hc : cleanTokens s l) (h : step s l = some t) : Tokens t := by
  cases step_call h with
  | write hw =>
    have hwritten := hw.written
    have hsub := hw.writes hwf
    obtain ⟨q, hq, r, hr, rfl⟩ := hw
    exact ht.keep rfl le_rfl hsub fun x hx => Or.inl (hwritten x hx)
  | skip => exact ht
  | start hid =>
    refine ht.keep rfl (Nat.le_succ _)
      (fun q hq => ⟨q, List.mem_append_left _ hq, Written.refl q⟩) fun r hr => ?_
    obtain hr | hr := List.mem_append.mp hr
    · exact Or.inl ⟨r, hr, Written.refl r⟩
    · obtain rfl := List.mem_singleton.mp hr
      exact Or.inr le_rfl
  | @«end» r enabled hr =>
    have hleft : ∀ y ∈ s.history.series, ∃ x, (y.1, x) ∈ s.history.series ∧
        TokensOk (s.active.filter fun q => q.rid ≠ r.rid) s.next (y.2.without r.rid) ∧
        (∀ e ∈ (y.2.without r.rid).episodes, e.current → e ∈ x.episodes) ∧
        ∃ new, y.2.parts = x.parts ++ new ∧ Given s.active y.1 x new ∧ ∀ p ∈ new, p.rid = r.rid :=
      fun y hy => ⟨y.2, hy, without_tokensOk (ht.series y hy) r.rid,
        fun e he hcurrent => (mem_without he hcurrent).1, [], (List.append_nil _).symm,
        given_nil _ _ _, fun _ h => absurd h List.not_mem_nil⟩
    cases enabled with
    | false => exact end_tokens hwf ht hleft
    | true =>
      rw [if_pos rfl]
      refine end_tokens hwf ht fun y hy => ?_
      obtain ⟨-, heq⟩ | ⟨x, hx, heq⟩ := History.end_series s.history r
      · exact hleft y (heq ▸ hy)
      · rw [heq] at hy
        obtain ⟨hunit, hyx⟩ | ⟨-, hy⟩ := (Assoc.mem_set_iff hwf.keys).mp hy
        · have hgives : x.gives r := by
            simp only [cleanTokens, hwf.find_eq hr, hx.1, hx.2.2, Option.all_some,
              Bool.false_or] at hc
            exact hc
          have hmem := Assoc.mem_of_get hx.1
          obtain ⟨hok, new, hparts, hnew, hrids⟩ := end_tokensOk hwf hr (ht.series _ hmem) hgives
          rw [hyx, hunit]
          exact ⟨x, hmem, hok, fun e he hcurrent =>
            (end_episodes (ht.series _ hmem).pending he hcurrent).1, new, hparts, hnew, hrids⟩
        · exact hleft y hy
  | @tick now admitted interval =>
    have hseries : ∀ y ∈ (s.history.tick s.active now admitted interval).series, ∃ x : Series,
        ((y.1, x) ∈ s.history.series ∨ (x.parts = [] ∧ x.episodes = [])) ∧
        TokensOk s.active s.next y.2 ∧
        (∃ new, y.2.parts = x.parts ++ new ∧ Given s.active y.1 x new) ∧
        ∀ e ∈ y.2.episodes, e.current → ∃ r ∈ s.active, r.rid = e.rid ∧
          e.last = r.totalTokens := by
      intro y hy
      obtain ⟨x, hx, hticked⟩ := History.mem_tick hwf.named hy
      obtain hx | ⟨rfl, -⟩ := hx
      · refine ⟨x, Or.inl hx, tick_tokensOk hwf (ht.series _ hx) (fun r hr => ?_) hticked⟩
        obtain ⟨hr, hpaused, hunit⟩ := History.mem_records.mp hr
        have hget : Assoc.get s.history.series r.unit = some x :=
          (Assoc.get_eq_some_iff hwf.keys).mpr (hunit ▸ hx)
        have hall := List.all_eq_true.mp hc r hr
        simp only [hpaused, hget, Option.all_some, Bool.false_or] at hall
        exact hall
      · refine ⟨_, Or.inr ⟨rfl, rfl⟩, tick_tokensOk hwf (new_tokensOk _ _ now) (fun r _ => ?_)
          hticked⟩
        exact Bool.or_true _
    refine ⟨fun y hy => ?_, ht.apart.follows hwf ⟨fun r hr => hr, fun y hy => ?_,
      fun y hy e he hcurrent => ?_⟩⟩
    · obtain ⟨x, -, hok, -⟩ := hseries y hy
      exact hok
    · obtain ⟨x, hx, -, hnew, -⟩ := hseries y hy
      exact ⟨x, hx, hnew⟩
    · obtain ⟨x, -, -, -, hlast⟩ := hseries y hy
      exact Or.inl (hlast e he hcurrent)

/-! ## Accumulators -/

def Bucket.Extends (b c : Bucket) : Prop :=
  b.outputTokens ≤ c.outputTokens ∧ b.thinkingTokens ≤ c.thinkingTokens ∧
    b.promptTokens ≤ c.promptTokens

/-- The open bucket has grown, or has grown and is closed; the closed buckets are as they were. -/
def Series.Grows (x y : Series) : Prop :=
  (y.closed = x.closed ∧ x.opened.Extends y.opened) ∨
    ∃ closedAt b, y.closed = x.closed ++ [(closedAt, b)] ∧ x.opened.Extends b

theorem grows_same {x y : Series} (hclosed : y.closed = x.closed) (hopened : y.opened = x.opened) :
    x.Grows y := Or.inl ⟨hclosed, hopened ▸ ⟨le_rfl, le_rfl, le_rfl⟩⟩

theorem step_grows {s t : State} {l : Label} (hwf : Wf s) (ht : Tokens s) (h : step s l = some t)
    {unit : String} {x y : Series} (hx : (unit, x) ∈ s.history.series)
    (hy : (unit, y) ∈ t.history.series) : x.Grows y := by
  have hunique : ∀ z, (unit, z) ∈ s.history.series → z = x := fun z hz =>
    (Prod.mk.inj (List.inj_on_of_nodup_map hwf.keys hz hx rfl)).2
  have hsame : (unit, y) ∈ s.history.series → x.Grows y := fun hy =>
    hunique y hy ▸ grows_same rfl rfl
  have hpending := (ht.series _ hx).pending
  cases step_call h with
  | write hw =>
    obtain ⟨q, hq, r, hr, rfl⟩ := hw
    exact hsame hy
  | skip | start hid => exact hsame hy
  | @«end» r enabled hr =>
    obtain ⟨z, hz, heq⟩ := History.mem_leave.mp hy
    have hleft : (unit, z) ∈ s.history.series → x.Grows y := by
      intro hz
      rw [show y = z.without r.rid from heq, hunique z hz]
      exact grows_same rfl rfl
    cases enabled with
    | false => exact hleft hz
    | true =>
      rw [if_pos rfl] at hz
      obtain ⟨-, hseries⟩ | ⟨u, hu, hseries⟩ := History.end_series s.history r
      · exact hleft (hseries ▸ hz)
      · rw [hseries] at hz
        obtain ⟨hunit, hzu⟩ | ⟨-, hz⟩ := (Assoc.mem_set_iff hwf.keys).mp hz
        · have hmem : (unit, u) ∈ s.history.series := by
            rw [show unit = r.unit from hunit]
            exact Assoc.mem_of_get hu.1
          obtain rfl := hunique u hmem
          obtain ⟨c, -, h2, h3, h4, -, h6⟩ := Series.finish_bucket r hpending
          rw [show y = z.without r.rid from heq, show z = (u.noteEnd r).finish r from hzu]
          refine Or.inl ⟨h6, ?_, ?_, h4⟩
          · exact (Nat.le_add_right _ _).trans_eq h2.symm
          · exact (Nat.le_add_right _ _).trans_eq h3.symm
        · exact hleft hz
  | tick =>
    obtain ⟨z, hz, hticked⟩ := History.mem_tick hwf.named hy
    obtain hz | ⟨-, hnone⟩ := hz
    · obtain rfl := hunique z hz
      obtain ⟨b, h1, h2, h3, -, hclosed⟩ := Series.ticked_bucket hpending hticked
      have hgrown : z.opened.Extends b :=
        ⟨(Nat.le_add_right _ _).trans_eq h1.symm, (Nat.le_add_right _ _).trans_eq h2.symm, h3⟩
      obtain ⟨hcl, hop⟩ | ⟨closedAt, hcl, -⟩ := hclosed
      · exact Or.inl ⟨hcl, hop ▸ hgrown⟩
      · exact Or.inr ⟨closedAt, b, hcl, hgrown⟩
    · rw [(Assoc.get_eq_some_iff hwf.keys).mpr hx] at hnone
      cases hnone

/-! ## Runs -/

/-- The buckets of a unit have the tokens of its requests' episodes; each bucket has those of its
parts, no two parts of a request overlap, in one unit or in two, and a request has emitted them; no
accumulator falls in a step. -/
theorem tokens_conserved {s : State}
    (hs : Reach step (fun s l => cleanTokens s l = true) init s) :
    (∀ unit x, (unit, x) ∈ s.history.series →
      x.tokens = (x.episodes.map Episode.tokens).sum ∧ (∀ e ∈ x.episodes, e.first ≤ e.last) ∧
      (∀ b ∈ x.closed, b.2.Balanced) ∧ x.opened.Balanced ∧
      (x.parts.Pairwise fun p q => p.rid = q.rid → p.last ≤ q.first) ∧
      ∀ r ∈ s.active, ∀ p ∈ x.parts, p.rid = r.rid → p.last ≤ r.totalTokens) ∧
    (∀ unit unit' x y, (unit, x) ∈ s.history.series → (unit', y) ∈ s.history.series →
      unit ≠ unit' → ∀ p ∈ x.parts, ∀ q ∈ y.parts, p.rid = q.rid →
      p.last ≤ q.first ∨ q.last ≤ p.first) ∧
    ∀ l t, step s l = some t → ∀ unit x y, (unit, x) ∈ s.history.series →
      (unit, y) ∈ t.history.series → x.Grows y := by
  have hi : Wf s ∧ Tokens s := by
    refine hs.invariant (P := fun s => Wf s ∧ Tokens s) ⟨init_wf, init_tokens⟩ ?_
    exact fun _ _ _ ha hc hstep => ⟨step_wf ha.1 hstep, step_tokens ha.1 ha.2 hc hstep⟩
  obtain ⟨hwf, ht⟩ := hi
  refine ⟨fun unit x hx => ?_, fun unit unit' x y hx hy hne => ht.apart.across _ hx _ hy hne,
    fun l t hstep unit x y hx hy => step_grows hwf ht hstep hx hy⟩
  have hok := ht.series _ hx
  exact ⟨hok.total, hok.ordered, hok.closed, hok.opened, ht.apart.within _ hx,
    fun r hr => ht.apart.emitted r hr _ hx⟩

/-- Two requests of one unit; one of them pauses and goes on, the other one ends. -/
def conservedRun : List Label :=
  [.start 7 "a" true, .tick 0 [] 5 true, .start 8 "a" true, .emit 0 2 3, .tick 1 [] 5 true,
    .emit 1 0 4, .pause 0, .tick 2 [] 5 true, .emit 1 0 6, .end 1 true, .emit 0 0 1, .resume 0 "a",
    .tick 6 [] 5 true, .emit 0 0 2, .tick 7 [] 5 true]

theorem tokens_conserved_run :
    ∃ s, Reach step (fun s l => cleanTokens s l = true) init s ∧
      (∀ unit x, (unit, x) ∈ s.history.series →
        x.tokens = (x.episodes.map Episode.tokens).sum ∧ (∀ e ∈ x.episodes, e.first ≤ e.last) ∧
        (∀ b ∈ x.closed, b.2.Balanced) ∧ x.opened.Balanced ∧
        (x.parts.Pairwise fun p q => p.rid = q.rid → p.last ≤ q.first) ∧
        ∀ r ∈ s.active, ∀ p ∈ x.parts, p.rid = r.rid → p.last ≤ r.totalTokens) ∧
      (s.history.series.map fun x => x.2.closed.map fun b => b.2.tokens) = [[15]] ∧
      (s.history.series.map fun x => x.2.tokens) = [17] := by
  obtain ⟨s, hs, hp⟩ := reach_any (p := fun s : State =>
    s.history.series.map (fun x => x.2.closed.map fun b => b.2.tokens) == [[15]] &&
      s.history.series.map (fun x => x.2.tokens) == [17])
    (show (replay step (fun s l => cleanTokens s l = true) init conservedRun).any _ = true by
      decide +kernel)
  obtain ⟨hclosed, htokens⟩ := Bool.and_eq_true_iff.mp hp
  exact ⟨s, hs, (tokens_conserved hs).1, beq_iff_eq.mp hclosed, beq_iff_eq.mp htokens⟩

/-- A request emits five tokens, and the dashboard empties its windows before the next tick. -/
def drainedRun : List Label :=
  [.start 7 "a" true, .tick 0 [] 5 true, .emit 0 0 5, .drain 0 false false, .tick 6 [] 5 true]

/-- A request is cancelled while it is paused, and the next one has its record's identity. -/
def inheritedRun : List Label :=
  [.start 7 "a" true, .emit 0 0 3, .tick 0 [] 5 true, .pause 0, .end 0 true, .start 7 "a" true,
    .emit 1 0 10, .tick 1 [] 5 true]

/-- Five tokens are lost; seven are counted that were emitted before the first tick. -/
theorem tokens_lost :
    ((replay step Free init drainedRun).map fun s => s.history.series.map fun x =>
      (x.2.tokens, x.2.episodes)) = some [(0, [⟨0, 0, 5, true⟩])] ∧
    ((replay step Free init inheritedRun).map fun s => s.history.series.map fun x =>
      (x.2.tokens, x.2.episodes)) = some [(7, [⟨0, 3, 3, false⟩, ⟨1, 10, 10, true⟩])] := by
  refine ⟨?_, ?_⟩ <;> decide +kernel

end SparkDeck.LiveHistory
