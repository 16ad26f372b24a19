import SparkDeck.Lib.Table
import SparkDeck.Onboarding.Membership

/-!
# Membership changes

`CallOk` is what every step keeps of one call, and `Inv` adds what it keeps of two: a join between
its first check and its save and a leave that is not over do not meet, and a credential that was
revoked is not one that a join is about to save. `orderly` is the result for runs that meet `Alone`.

`undone` is a run that does not: a leave that waits for its controller clears the assignment that a
join saved after it began.
-/

namespace SparkDeck.Onboarding

open Transition

variable {s s' : State} {i : ℕ} {c c' : Call}

/-- Before it has changed anything. -/
def Call.early (c : Call) : Bool :=
  match c.stage with
  | .queued => true
  | .pairing => true
  | .done ok => !ok
  | _ => c.joining || c.leaving

/-- It has the membership lock. -/
def Call.inside (c : Call) : Bool :=
  c.kind.locks &&
    match c.stage with
    | .queued => false
    | .done _ => false
    | _ => true

/-- The calls that come to a stage. -/
def Call.typed (c : Call) : Bool :=
  match c.stage with
  | .queued => c.kind.locks
  | .inventory _ => decide (c.kind ≠ .register)
  | .network => decide (c.kind = .join)
  | .registering => decide (c.kind = .join)
  | .adopting => decide (c.kind = .join)
  | .unregistering => decide (c.kind = .leave)
  | .consent => !c.kind.locks
  | .pairing => decide (c.kind = .register)
  | _ => true

/-- What a join has checked so far. -/
structure Checked (s : State) (st : Stage) : Prop where
  free : s.assignment = none
  saved : s.work.saved = 0
  legacy : s.work.legacy = 0
  /-- Unless the ledger had claims, it has none. -/
  claims : st ≠ .inventory true → s.work.claims = ∅
  nodes : (∀ claims, st ≠ .inventory claims) → s.nodes = 0

theorem Checked.empty {st : Stage} (h : Checked s st) (hst : ∀ claims, st ≠ .inventory claims) :
    s.work.Empty := by
  have hclaims := h.claims (hst true)
  exact ⟨h.saved, h.legacy, Finset.subset_empty.mp (hclaims ▸ s.work.claimed), hclaims⟩

structure CallOk (s : State) (i : ℕ) (c : Call) : Prop where
  held : c.inside → s.holder = some i
  typed : c.typed
  early : c.early → c.Unchanged
  joining : c.joining → Checked s c.stage
  leaving : c.leaving → ∀ m, s.assignment = some m → c.examined = some m
  ends : c.kind.locks = false → c.stage = .done true ∨ c.stage = .status →
    ∀ m, c.examined = some m → c.revoked.isSome
  fresh : c.stage = .queued → c.sent = none ∧ c.grant = none
  locks : c.kind.locks → c.revoked = none ∧ c.cleared = none
  leaves : c.kind.locks = false → c.saved = none
  grant : ∀ t, c.grant = some t → t ≤ s.token
  examined : ∀ m t, c.examined = some m → m.token = some t →
    t ≤ s.token ∧ (c.revoked.isSome → t < s.token)
  revoked : ∀ t, c.revoked = some t → t < s.token
  unowned : ∀ v, c.saved = some v → v.work.Empty ∧ v.nodes = 0
  /-- The credential of a membership that was saved is the current one only while it lasts. -/
  lasts : ∀ v, c.saved = some v → v.member.token = some s.token → s.assignment = some v.member
  member : ∀ v t, c.saved = some v → v.member.token = some t → t ≤ s.token
  cleared : ∀ m, c.cleared = some m → c.examined = some m

structure Inv (s : State) : Prop where
  calls : ∀ (i : ℕ) (c : Call), s.calls[i]? = some c → CallOk s i c
  apart : ∀ (i j : ℕ) (c d : Call), s.calls[i]? = some c → s.calls[j]? = some d →
    c.joining → d.leaving → False
  /-- What was revoked is no credential that a join may still save. -/
  granted : ∀ (i j : ℕ) (c d : Call) (t : ℕ), s.calls[i]? = some c → s.calls[j]? = some d →
    c.revoked = some t → d.joining → d.grant ≠ some t
  revoked : ∀ (i j : ℕ) (c d : Call) (t : ℕ) (v : Saved), s.calls[i]? = some c →
    s.calls[j]? = some d → c.revoked = some t → d.saved = some v → v.member.token = some t →
    c.examined = some v.member
  token : ∀ m t, s.assignment = some m → m.token = some t → t ≤ s.token

theorem Inv.order (h : Inv s) : Orderly s where
  cleared i c m hi hc := (h.calls i c hi).cleared m hc
  revoked := h.revoked
  unowned j d v hj hv := (h.calls j d hj).unowned v hv
  left i c m hi hk hst hm _ ht := by
    have hr := (h.calls i c hi).ends hk (Or.inl hst) m hm
    exact absurd (((h.calls i c hi).examined m _ hm ht).2 hr) (Nat.lt_irrefl _)
  raised i c hi hst := (h.calls i c hi).early (by rw [Call.early, hst]; rfl)

/-! ## A call that goes on -/

theorem joining_iff : c.joining ↔ c.kind = .join ∧
    ((∃ claims, c.stage = .inventory claims) ∨ c.stage = .network ∨ c.stage = .registering) := by
  unfold Call.joining
  rw [Bool.and_eq_true, decide_eq_true_eq]
  refine and_congr_right fun _ => ?_
  cases c.stage <;> simp

theorem leaving_iff : c.leaving = true ↔ c.kind.locks = false ∧
    ((∃ claims, c.stage = .inventory claims) ∨ c.stage = .unregistering ∨ c.stage = .consent) := by
  unfold Call.leaving
  rw [Bool.and_eq_true, Bool.not_eq_true']
  refine and_congr_right fun _ => ?_
  cases c.stage <;> simp

theorem inside_of_joining (h : c.joining) : c.inside := by
  obtain ⟨hk, ⟨claims, hst⟩ | hst | hst⟩ := joining_iff.mp h <;> rw [Call.inside, hk, hst] <;> rfl

/-- What does not depend on the stage. -/
theorem CallOk.restage (h : CallOk s i c) {st : Stage} {sent : Option ℕ}
    (ha : s'.assignment = s.assignment) (ht : s'.token = s.token)
    (hheld : Call.inside { c with stage := st, sent := sent } → s'.holder = some i)
    (htyped : Call.typed { c with stage := st, sent := sent })
    (hearly : Call.early { c with stage := st, sent := sent } → c.Unchanged)
    (hjoining : Call.joining { c with stage := st, sent := sent } → Checked s' st)
    (hleaving : Call.leaving { c with stage := st, sent := sent } → c.leaving)
    (hover : c.kind.locks = false → st = .done true ∨ st = .status →
      ∀ m, c.examined = some m → c.revoked.isSome) (hst : st ≠ .queued) :
    CallOk s' i { c with stage := st, sent := sent } where
  held := hheld
  typed := htyped
  early h' := ⟨(hearly h').saved, (hearly h').revoked, (hearly h').cleared⟩
  joining := hjoining
  leaving h' := by
    rw [ha]
    exact h.leaving (hleaving h')
  ends := hover
  fresh h' := absurd h' hst
  locks := h.locks
  leaves := h.leaves
  grant t := by
    rw [ht]
    exact h.grant t
  examined m t := by
    rw [ht]
    exact h.examined m t
  revoked t := by
    rw [ht]
    exact h.revoked t
  unowned := h.unowned
  lasts v := by
    rw [ht, ha]
    exact h.lasts v
  member v t := by
    rw [ht]
    exact h.member v t
  cleared := h.cleared

/-- A call that does not move, where the membership and the workloads stay the same. -/
theorem CallOk.stay (h : CallOk s i c) (ha : s'.assignment = s.assignment)
    (ht : s'.token = s.token) (hheld : c.inside → s'.holder = some i)
    (hjoining : c.joining → Checked s' c.stage) : CallOk s' i c :=
  { h with
    held := hheld
    joining := hjoining
    leaving := by
      rw [ha]
      exact h.leaving
    grant t := by
      rw [ht]
      exact h.grant t
    examined m t := by
      rw [ht]
      exact h.examined m t
    revoked t := by
      rw [ht]
      exact h.revoked t
    lasts v := by
      rw [ht, ha]
      exact h.lasts v
    member v t := by
      rw [ht]
      exact h.member v t }

theorem Checked.same {st : Stage} (h : Checked s st) (ha : s'.assignment = s.assignment)
    (hw : s'.work = s.work) (hn : s'.nodes = s.nodes) : Checked s' st :=
  ⟨ha.trans h.free, by rw [hw]; exact h.saved, by rw [hw]; exact h.legacy,
    by rw [hw]; exact h.claims, by rw [hn]; exact h.nodes⟩

/-- A call that goes on to another stage, and nothing else but the lock and the nodes changes. -/
theorem Inv.stage (h : Inv s) (hi : s.calls[i]? = some c) {st : Stage} {sent : Option ℕ}
    (hcalls : s'.calls = s.calls.set i { c with stage := st, sent := sent })
    (ha : s'.assignment = s.assignment) (ht : s'.token = s.token) (hw : s'.work = s.work)
    (hn : s'.nodes = s.nodes ∨ c.inside)
    (hholder : ∀ j, j ≠ i → s.holder = some j → s'.holder = some j)
    (hheld : Call.inside { c with stage := st, sent := sent } → s'.holder = some i)
    (htyped : Call.typed { c with stage := st, sent := sent })
    (hearly : Call.early { c with stage := st, sent := sent } → c.Unchanged)
    (hjoining : Call.joining { c with stage := st, sent := sent } →
      Checked s' st ∧ (c.joining = true ∨ c.grant = none ∧ ∀ d ∈ s.calls, d.leaving = false))
    (hleaving : Call.leaving { c with stage := st, sent := sent } → c.leaving)
    (hover : c.kind.locks = false → st = .done true ∨ st = .status →
      ∀ m, c.examined = some m → c.revoked.isSome) (hst : st ≠ .queued) : Inv s' := by
  have hc := h.calls i c hi
  -- A call of `s'` is one of `s`, at another stage if it is the one that moves.
  have hback : ∀ {j : ℕ} {d : Call}, s'.calls[j]? = some d →
      j = i ∧ d = { c with stage := st, sent := sent } ∨ j ≠ i ∧ s.calls[j]? = some d := by
    intro j d hj
    rw [hcalls] at hj
    exact Table.set_cases hj
  constructor
  · intro j d hj
    rcases hback hj with ⟨rfl, rfl⟩ | ⟨hne, hj⟩
    · exact hc.restage ha ht hheld htyped hearly (fun hjo => (hjoining hjo).1) hleaving hover hst
    · have hd := h.calls j d hj
      refine hd.stay ha ht (fun hin => hholder j hne (hd.held hin)) fun hjo => ?_
      rcases hn with hn | hin
      · exact (hd.joining hjo).same ha hw hn
      · have hh := hd.held (inside_of_joining hjo)
        rw [hc.held hin] at hh
        exact absurd (Option.some.inj hh).symm hne
  · intro j k d e hj hk hdj hel
    rcases hback hj with ⟨rfl, rfl⟩ | ⟨-, hj⟩
    · rcases hback hk with ⟨rfl, rfl⟩ | ⟨-, hk⟩
      · rcases (hjoining hdj).2 with hcj | ⟨-, hno⟩
        · exact h.apart _ _ c c hi hi hcj (hleaving hel)
        · rw [hno c (List.mem_of_getElem? hi)] at *
          exact absurd (hleaving hel) Bool.false_ne_true
      · rcases (hjoining hdj).2 with hcj | ⟨-, hno⟩
        · exact h.apart _ _ c e hi hk hcj hel
        · rw [hno e (List.mem_of_getElem? hk)] at hel
          cases hel
    · rcases hback hk with ⟨rfl, rfl⟩ | ⟨-, hk⟩
      · exact h.apart _ _ d c hj hi hdj (hleaving hel)
      · exact h.apart _ _ d e hj hk hdj hel
  · intro j k d e t hj hk hr hjo
    have hrev : ∃ (j' : ℕ) (d' : Call), s.calls[j']? = some d' ∧ d'.revoked = some t := by
      rcases hback hj with ⟨rfl, rfl⟩ | ⟨-, hj⟩
      · exact ⟨_, c, hi, hr⟩
      · exact ⟨j, d, hj, hr⟩
    obtain ⟨j', d', hj', hr'⟩ := hrev
    rcases hback hk with ⟨rfl, rfl⟩ | ⟨-, hk⟩
    · rcases (hjoining hjo).2 with hcj | ⟨hnone, -⟩
      · exact h.granted j' _ d' c t hj' hi hr' hcj
      · intro hg
        cases hnone.symm.trans hg
    · exact h.granted j' k d' e t hj' hk hr' hjo
  · intro j k d e t v hj hk hr hv hm
    have hsaved : ∃ (k' : ℕ) (e' : Call), s.calls[k']? = some e' ∧ e'.saved = some v := by
      rcases hback hk with ⟨rfl, rfl⟩ | ⟨-, hk⟩
      · exact ⟨_, c, hi, hv⟩
      · exact ⟨k, e, hk, hv⟩
    obtain ⟨k', e', hk', hv'⟩ := hsaved
    rcases hback hj with ⟨rfl, rfl⟩ | ⟨-, hj⟩
    · exact h.revoked _ k' c e' t v hi hk' hr hv' hm
    · exact h.revoked j k' d e' t v hj hk' hr hv' hm
  · rw [ha, ht]
    exact h.token

variable {ok : Bool}

/-- A call that is over, and has changed nothing if it raises. -/
theorem Inv.close (h : Inv s) (hi : s.calls[i]? = some c)
    (hfree : c.kind.locks → c.inside ∨ s.holder = none)
    (hun : ok = false → c.Unchanged) (hover : ok = true → c.stage = .status) :
    Inv (s.close i c ok) := by
  refine @Inv.stage s (s.close i c ok) i c h hi (.done ok) c.sent rfl rfl rfl rfl (Or.inl rfl)
    ?_ ?_ rfl ?_ ?_ ?_ ?_ nofun
  · intro j hj hh
    change (if c.kind.locks = true then none else s.holder) = some j
    split
    case isTrue hk =>
      rcases hfree hk with hin | hnone
      · rw [(h.calls i c hi).held hin] at hh
        exact absurd (Option.some.inj hh).symm hj
      · cases hnone.symm.trans hh
    case isFalse => exact hh
  · intro hin
    rw [Call.inside, Bool.and_eq_true] at hin
    cases hin.2
  · intro he
    refine hun ?_
    cases ok with
    | true => cases he
    | false => rfl
  · intro hj
    obtain ⟨-, ⟨_, hst⟩ | hst | hst⟩ := joining_iff.mp hj <;> cases hst
  · intro hl
    obtain ⟨-, ⟨_, hst⟩ | hst | hst⟩ := leaving_iff.mp hl <;> cases hst
  · intro hk hst
    rcases hst with hst | hst
    · exact (h.calls i c hi).ends hk (Or.inr (hover (Stage.done.inj hst)))
    · cases hst

/-- A call inside the lock, or that needs none. -/
theorem free_of_stage (hst : c.stage ≠ .queued) (hdone : ∀ ok, c.stage ≠ .done ok) :
    c.kind.locks → c.inside ∨ s.holder = none := by
  intro hk
  left
  rw [Call.inside, hk, Bool.true_and]
  cases hs : c.stage <;> first | rfl | exact absurd hs hst | exact absurd hs (hdone _)

theorem Inv.acquire (h : Inv s) (hi : s.calls[i]? = some c) (hc : Alone s (.acquire i))
    (hs : stepCall s i c (.acquire i) = some s') : Inv s' := by
  obtain ⟨hq, rfl⟩ := guard_some hs
  have hcall := h.calls i c hi
  have hun : c.Unchanged := hcall.early (by rw [Call.early, hq.1])
  have hclose : Inv (s.close i c false) :=
    h.close hi (fun _ => Or.inr hq.2) (fun _ => hun)
      (fun he => absurd he Bool.false_ne_true)
  have hlocks : c.kind.locks := by
    have ht := hcall.typed
    rwa [Call.typed, hq.1] at ht
  have hno : ∀ j, s.holder ≠ some j := by
    intro j hj
    rw [hq.2] at hj
    cases hj
  have hnol : ∀ st : Stage, Call.leaving { c with stage := st } → False := by
    intro st hl
    rw [(leaving_iff.mp hl).1] at hlocks
    cases hlocks
  unfold State.acquire
  split
  case isTrue hr =>
    split
    · exact hclose
    · refine h.stage hi rfl rfl rfl rfl (Or.inl rfl) (fun j _ hj => absurd hj (hno j))
        (fun _ => rfl) ?_ (fun _ => hun) ?_ (fun hl => absurd hl (hnol _)) ?_
          Stage.noConfusion
      · simp only [Call.typed, hr, decide_true]
      · intro hj
        rw [(joining_iff.mp hj).1] at hr
        cases hr
      · intro hk
        cases hlocks.symm.trans hk
  case isFalse hr =>
    split
    · exact hclose
    · rename_i hassign
      rw [Option.not_isSome_iff_eq_none] at hassign
      split
      · exact hclose
      · rename_i hdep
        simp only [Workloads.deployments, Bool.or_eq_true, decide_eq_true_eq, not_or,
          not_not] at hdep
        refine h.stage hi rfl rfl rfl rfl (Or.inl rfl) (fun j _ hj => absurd hj (hno j))
          (fun _ => rfl) ?_ (fun _ => hun) ?_ (fun hl => absurd hl (hnol _)) ?_
          Stage.noConfusion
        · simp only [Call.typed, decide_eq_true_eq]
          exact hr
        · intro hj
          refine ⟨⟨hassign, hdep.1, hdep.2, ?_, fun hne => absurd rfl (hne _)⟩, Or.inr
            ⟨(hcall.fresh hq.1).2, ?_⟩⟩
          · intro hne
            by_contra hcl
            exact hne (congrArg Stage.inventory (decide_eq_true hcl))
          · have hp : Passes s s.calls[i]? := hc
            rw [hi] at hp
            exact hp (joining_iff.mp hj).1 hassign
        · intro hk
          cases hlocks.symm.trans hk

theorem containers_false {w : Workloads} (h : w.containers = false) :
    w.managed = ∅ ∧ w.claims = ∅ := by
  simp only [Workloads.containers, Bool.or_eq_false_iff, decide_eq_false_iff_not, not_not] at h
  refine ⟨h.1, ?_⟩
  have hclaims := h.2
  rwa [h.1, Finset.sdiff_empty] at hclaims

theorem Inv.inventory (h : Inv s) (hi : s.calls[i]? = some c) {docker : Bool}
    (hs : stepCall s i c (.inventory i docker) = some s') : Inv s' := by
  simp only [stepCall] at hs
  split at hs
  case h_1 claims hq =>
    cases hs
    have hcall := h.calls i c hi
    have hkind : c.kind ≠ .register := by
      have ht := hcall.typed
      rw [Call.typed, hq] at ht
      exact of_decide_eq_true ht
    have hwhich : c.joining ∨ c.leaving := by
      cases hk : c.kind with
      | register => exact absurd hk hkind
      | join => exact Or.inl (joining_iff.mpr ⟨hk, Or.inl ⟨claims, hq⟩⟩)
      | leave | detach => exact Or.inr (leaving_iff.mpr ⟨by rw [hk]; rfl, Or.inl ⟨claims, hq⟩⟩)
    have hun : c.Unchanged := by
      refine hcall.early ?_
      rw [Call.early, hq]
      rwa [Bool.or_eq_true]
    have hfree := free_of_stage (s := s) (c := c) (by rw [hq]; exact nofun) (by rw [hq]; exact nofun)
    have hclose : Inv (s.close i c false) := h.close hi hfree (fun _ => hun) nofun
    -- The call goes on to its next await.
    have hnext : ∀ st : Stage, st ≠ .queued → (∀ claims, st ≠ .inventory claims) → st ≠ .status →
        st ≠ .done true → Call.typed { c with stage := st } →
        (Call.joining { c with stage := st } → Checked s st ∧ c.joining) →
        (Call.leaving { c with stage := st } → c.leaving) →
        Inv (s.put i { c with stage := st }) := by
      intro st hnq hni hns hnd htyped hjo hle
      refine h.stage hi rfl rfl rfl rfl (Or.inl rfl) (fun j _ hj => hj) ?_ htyped (fun _ => hun)
        (fun hj => ⟨(hjo hj).1.same rfl rfl rfl, Or.inl (hjo hj).2⟩) hle ?_ hnq
      · intro hin
        have hk : c.kind.locks := (Bool.and_eq_true_iff.mp hin).1
        rcases hfree hk with hin' | hnone
        · exact hcall.held hin'
        · refine hcall.held ?_
          rw [Call.inside, hk, hq]
          rfl
      · intro _ hst
        rcases hst with hst | hst
        · exact absurd hst hnd
        · exact absurd hst hns
    unfold State.checked
    split
    case isTrue hpass =>
      split
      case h_1 hk =>
        split
        case isTrue hnodes =>
          have hj : c.joining := joining_iff.mpr ⟨hk, Or.inl ⟨claims, hq⟩⟩
          have hch := hcall.joining hj
          rw [hq] at hch
          refine hnext .network nofun nofun nofun nofun ?_ ?_ ?_
          · rw [Call.typed]
            exact decide_eq_true hk
          · refine fun _ => ⟨⟨hch.free, hch.saved, hch.legacy, fun _ => ?_, fun _ => hnodes⟩, hj⟩
            -- Docker has answered, or there was no claim to begin with.
            unfold State.unowned at hpass
            split at hpass
            · exact (containers_false (Bool.not_eq_true' _ ▸ hpass)).2
            · rw [Bool.not_eq_true'] at hpass
              subst hpass
              exact hch.claims (fun he => Bool.false_ne_true (Stage.inventory.inj he))
          · intro hl
            obtain ⟨-, ⟨_, hst⟩ | hst | hst⟩ := leaving_iff.mp hl <;> cases hst
        case isFalse => exact hclose
      case h_2 hk =>
        have hl : c.leaving := leaving_iff.mpr ⟨by rw [hk]; rfl, Or.inl ⟨claims, hq⟩⟩
        refine hnext .unregistering nofun nofun nofun nofun ?_ ?_ fun _ => hl
        · rw [Call.typed]
          exact decide_eq_true hk
        · intro hj
          obtain ⟨-, ⟨_, hst⟩ | hst | hst⟩ := joining_iff.mp hj <;> cases hst
      case h_3 hnj hnl =>
        have hl : c.kind.locks = false := by
          cases hk : c.kind with
          | register => exact absurd hk hkind
          | join => exact absurd hk hnj
          | leave => exact absurd hk hnl
          | detach => rfl
        refine hnext .consent nofun nofun nofun nofun ?_ ?_ ?_
        · rw [Call.typed]
          exact Bool.not_eq_true' _ ▸ hl
        · intro hj
          obtain ⟨-, ⟨_, hst⟩ | hst | hst⟩ := joining_iff.mp hj <;> cases hst
        · exact fun _ => leaving_iff.mpr ⟨hl, Or.inl ⟨claims, hq⟩⟩
    case isFalse => exact hclose
  case h_2 => cases hs

theorem Inv.reach (h : Inv s) (hi : s.calls[i]? = some c)
    (hs : stepCall s i c (.reach i ok) = some s') : Inv s' := by
  obtain ⟨hq, hs⟩ := Option.ite_none_right_eq_some.mp hs
  have hcall := h.calls i c hi
  have hk : c.kind = .join := by
    have ht := hcall.typed
    rw [Call.typed, hq] at ht
    exact of_decide_eq_true ht
  have hj : c.joining := joining_iff.mpr ⟨hk, Or.inr (Or.inl hq)⟩
  have hun : c.Unchanged := by
    refine hcall.early ?_
    rw [Call.early, hq, hj]
    rfl
  have hch := hcall.joining hj
  rw [hq] at hch
  split at hs
  · cases hs
    refine h.stage hi rfl rfl rfl rfl (Or.inl rfl) (fun j _ hj => hj)
      (fun _ => hcall.held (inside_of_joining hj)) ?_ (fun _ => hun) ?_ ?_ ?_ nofun
    · rw [Call.typed]
      exact decide_eq_true hk
    · exact fun _ => ⟨⟨hch.free, hch.saved, hch.legacy, fun _ => hch.claims nofun,
        fun _ => hch.nodes nofun⟩, Or.inl hj⟩
    · intro hl
      obtain ⟨-, ⟨_, hst⟩ | hst | hst⟩ := leaving_iff.mp hl <;> cases hst
    · rintro - (hst | hst) <;> cases hst
  · cases hs
    exact h.close hi (fun _ => Or.inl (inside_of_joining hj)) (fun _ => hun) nofun

theorem Inv.adopted (h : Inv s) (hi : s.calls[i]? = some c) (hc : Alone s (.adopted i ok))
    (hs : stepCall s i c (.adopted i ok) = some s') : Inv s' := by
  obtain ⟨hq, hs⟩ := Option.ite_none_right_eq_some.mp hs
  have hcall := h.calls i c hi
  have hk : c.kind = .join := by
    have ht := hcall.typed
    rw [Call.typed, hq] at ht
    exact of_decide_eq_true ht
  have hin : c.inside := by rw [Call.inside, hk, hq]; rfl
  obtain rfl : ok = true := hc
  cases hs
  refine h.stage hi rfl rfl rfl rfl (Or.inl rfl) (fun j _ hj => hj)
    (fun _ => hcall.held hin) rfl ?_ ?_ ?_ ?_ nofun
  · intro he
    rcases Bool.or_eq_true_iff.mp he with he | he
    · obtain ⟨-, ⟨_, hst⟩ | hst | hst⟩ := joining_iff.mp he <;> cases hst
    · obtain ⟨-, ⟨_, hst⟩ | hst | hst⟩ := leaving_iff.mp he <;> cases hst
  · intro he
    obtain ⟨-, ⟨_, hst⟩ | hst | hst⟩ := joining_iff.mp he <;> cases hst
  · intro he
    obtain ⟨-, ⟨_, hst⟩ | hst | hst⟩ := leaving_iff.mp he <;> cases hst
  · intro hl
    rw [hk] at hl
    cases hl

theorem Inv.unregistered (h : Inv s) (hi : s.calls[i]? = some c)
    (hs : stepCall s i c (.unregistered i ok) = some s') : Inv s' := by
  obtain ⟨hq, hs⟩ := Option.ite_none_right_eq_some.mp hs
  have hcall := h.calls i c hi
  have hk : c.kind.locks = false := by
    have ht := hcall.typed
    rw [Call.typed, hq] at ht
    rw [of_decide_eq_true ht]
    rfl
  have hl : c.leaving := leaving_iff.mpr ⟨hk, Or.inr (Or.inl hq)⟩
  have hun : c.Unchanged := by
    refine hcall.early ?_
    rw [Call.early, hq, hl]
    exact Bool.or_true _
  split at hs
  · cases hs
    refine h.stage hi rfl rfl rfl rfl (Or.inl rfl) (fun j _ hj => hj) ?_ ?_ (fun _ => hun) ?_
      (fun _ => hl) ?_ nofun
    · intro hin
      rw [(Bool.and_eq_true_iff.mp hin).1] at hk
      cases hk
    · rw [Call.typed]
      exact Bool.not_eq_true' _ ▸ hk
    · intro he
      obtain ⟨-, ⟨_, hst⟩ | hst | hst⟩ := joining_iff.mp he <;> cases hst
    · rintro - (hst | hst) <;> cases hst
  · cases hs
    refine h.close hi (fun hk' => ?_) (fun _ => hun) nofun
    cases hk.symm.trans hk'

theorem Inv.paired (h : Inv s) (hi : s.calls[i]? = some c) {added : ℕ}
    (hs : stepCall s i c (.paired i added ok) = some s') : Inv s' := by
  obtain ⟨hq, hs⟩ := Option.ite_none_right_eq_some.mp hs
  have hcall := h.calls i c hi
  have hk : c.kind = .register := by
    have ht := hcall.typed
    rw [Call.typed, hq] at ht
    exact of_decide_eq_true ht
  have hin : c.inside := by rw [Call.inside, hk, hq]; rfl
  have hun : c.Unchanged := hcall.early (by rw [Call.early, hq])
  have hnj : ∀ st : Stage, Call.joining { c with stage := st } → False := by
    intro st hj
    have hk' := (joining_iff.mp hj).1
    cases hk.symm.trans hk'
  have hnl : ∀ st : Stage, Call.leaving { c with stage := st } → False := by
    intro st hl
    have hk' := (leaving_iff.mp hl).1
    rw [hk] at hk'
    cases hk'
  have hover : ∀ st : Stage, c.kind.locks = false → st = .done true ∨ st = .status →
      ∀ m, c.examined = some m → c.revoked.isSome := by
    intro st hl
    rw [hk] at hl
    cases hl
  split at hs
  · cases hs
    exact h.stage hi rfl rfl rfl rfl (Or.inr hin) (fun j _ hj => hj) (fun _ => hcall.held hin) rfl
      (fun _ => hun) (fun hj => absurd hj (hnj _)) (fun hl => absurd hl (hnl _)) (hover _) nofun
  · cases hs
    refine h.stage hi rfl rfl rfl rfl (Or.inr hin) ?_ ?_ rfl (fun _ => hun)
      (fun hj => absurd hj (hnj (.done false))) (fun hl => absurd hl (hnl (.done false)))
      (hover _) nofun
    · intro j hj hh
      rw [hcall.held hin] at hh
      exact absurd (Option.some.inj hh).symm hj
    · intro hin'
      rw [Call.inside, Bool.and_eq_true] at hin'
      cases hin'.2

theorem Inv.statusDone (h : Inv s) (hi : s.calls[i]? = some c) (hc : Alone s (.statusDone i ok))
    (hs : stepCall s i c (.statusDone i ok) = some s') : Inv s' := by
  obtain ⟨hq, rfl⟩ := guard_some hs
  refine h.close hi (free_of_stage (by rw [hq]; exact nofun) (by rw [hq]; exact nofun)) ?_
    fun _ => hq
  rintro rfl
  have hu : false ∨ Undecided s.calls[i]? := hc
  rw [hi] at hu
  exact hu.resolve_left Bool.false_ne_true

/-! ## The credential is replaced -/

/-- A call that does not move, while the credential is replaced and the assignment stays or goes. -/
theorem CallOk.rotate (h : CallOk s i c) (ht : s'.token = s.token + 1)
    (ha : s'.assignment = s.assignment ∨ s'.assignment = none) (hh : s'.holder = s.holder)
    (hjoining : c.joining → Checked s' c.stage) : CallOk s' i c :=
  { h with
    held hin := hh.trans (h.held hin)
    joining := hjoining
    leaving hl m hm := by
      rcases ha with ha | ha
      · exact h.leaving hl m (ha.symm.trans hm)
      · cases ha.symm.trans hm
    grant t hg := by
      have hle := h.grant t hg
      omega
    examined m t hm hmt := by
      obtain ⟨hle, hlt⟩ := h.examined m t hm hmt
      refine ⟨by omega, fun hr => ?_⟩
      omega
    revoked t hr := by
      have hlt := h.revoked t hr
      omega
    lasts v hv hm := by
      have hle := h.member v _ hv hm
      omega
    member v t hv hm := by
      have hle := h.member v t hv hm
      omega }

theorem Inv.pair (h : Inv s) (hi : s.calls[i]? = some c)
    (hs : stepCall s i c (.pair i) = some s') : Inv s' := by
  obtain ⟨hq, rfl⟩ := guard_some hs
  have hcall := h.calls i c hi
  have hnq : c.stage ≠ .queued := by
    intro hst
    rw [(hcall.fresh hst).1] at hq
    cases hq
  have hback : ∀ {j : ℕ} {d : Call},
      (s.calls.set i { c with sent := none, grant := some (s.token + 1) })[j]? = some d →
      j = i ∧ d = { c with sent := none, grant := some (s.token + 1) } ∨
        j ≠ i ∧ s.calls[j]? = some d := fun hj => Table.set_cases hj
  -- What a call of the new state is about is the same as before.
  have hsame : ∀ {j : ℕ} {d : Call},
      (s.calls.set i { c with sent := none, grant := some (s.token + 1) })[j]? = some d →
      ∃ d' : Call, s.calls[j]? = some d' ∧ d'.kind = d.kind ∧ d'.stage = d.stage ∧
        d'.saved = d.saved ∧ d'.revoked = d.revoked ∧ d'.examined = d.examined := by
    intro j d hj
    rcases hback hj with ⟨rfl, rfl⟩ | ⟨-, hj⟩
    · exact ⟨c, hi, rfl, rfl, rfl, rfl, rfl⟩
    · exact ⟨d, hj, rfl, rfl, rfl, rfl, rfl⟩
  constructor
  · intro j d hj
    rcases hback hj with ⟨rfl, rfl⟩ | ⟨-, hj⟩
    · have hr := @CallOk.rotate s { s with token := s.token + 1 } j c hcall rfl (Or.inl rfl) rfl
        fun hj => (hcall.joining hj).same rfl rfl rfl
      exact ⟨hr.held, hr.typed, fun he => ⟨(hr.early he).saved, (hr.early he).revoked,
        (hr.early he).cleared⟩, fun hj => (hr.joining hj).same rfl rfl rfl, hr.leaving, hr.ends,
        fun hst => absurd hst hnq, hr.locks, hr.leaves,
        fun t ht => le_of_eq (Option.some.inj ht).symm, hr.examined, hr.revoked, hr.unowned,
        hr.lasts, hr.member, hr.cleared⟩
    · exact (h.calls j d hj).rotate rfl (Or.inl rfl) rfl
        fun hjo => ((h.calls j d hj).joining hjo).same rfl rfl rfl
  · intro j k d e hj hk hdj hel
    obtain ⟨d', hj', hk1, hs1, -⟩ := hsame hj
    obtain ⟨e', hk', hk2, hs2, -⟩ := hsame hk
    refine h.apart j k d' e' hj' hk' ?_ ?_
    · rw [joining_iff] at hdj ⊢
      rwa [hk1, hs1]
    · rw [leaving_iff] at hel ⊢
      rwa [hk2, hs2]
  · intro j k d e t hj hk hr hjo
    obtain ⟨d', hj', -, -, -, hr', -⟩ := hsame hj
    rcases hback hk with ⟨rfl, rfl⟩ | ⟨-, hk⟩
    · intro hg
      have hlt := (h.calls j d' hj').revoked t (hr'.trans hr)
      have ht := Option.some.inj hg
      omega
    · exact h.granted j k d' e t hj' hk (hr'.trans hr) hjo
  · intro j k d e t v hj hk hr hv hm
    obtain ⟨d', hj', -, -, -, hr', he'⟩ := hsame hj
    obtain ⟨e', hk', -, -, hv', -, -⟩ := hsame hk
    rw [← he']
    exact h.revoked j k d' e' t v hj' hk' (hr'.trans hr) (hv'.trans hv) hm
  · intro m t hm hmt
    have hle := h.token m t hm hmt
    change t ≤ s.token + 1
    omega

/-! ## The membership changes -/

/-- Two joins do not pass their checks together. -/
theorem Inv.one (h : Inv s) {j : ℕ} {d : Call} (hi : s.calls[i]? = some c)
    (hj : s.calls[j]? = some d) (hc : c.inside) (hd : d.joining) : j = i := by
  have hh := (h.calls j d hj).held (inside_of_joining hd)
  rw [(h.calls i c hi).held hc] at hh
  exact (Option.some.inj hh).symm

theorem Inv.save (h : Inv s) (hi : s.calls[i]? = some c) (hk : c.kind = .join)
    (hq : c.stage = .registering) : Inv (s.save i c) := by
  have hcall := h.calls i c hi
  have hj : c.joining := joining_iff.mpr ⟨hk, Or.inr (Or.inr hq)⟩
  have hin := inside_of_joining hj
  have hch := hcall.joining hj
  have hempty := hch.empty (by rw [hq]; exact nofun)
  have hnodes := hch.nodes (by rw [hq]; exact nofun)
  have hlocks : c.kind.locks := by rw [hk]; rfl
  let v : Saved := ⟨⟨s.serial, c.grant⟩, s.work, s.nodes⟩
  let c' : Call := { c with stage := .adopting, saved := some v }
  have hback : ∀ {j : ℕ} {d : Call}, (s.calls.set i c')[j]? = some d →
      j = i ∧ d = c' ∨ j ≠ i ∧ s.calls[j]? = some d := fun hj => Table.set_cases hj
  have hnj : c'.joining → False := by
    intro he
    obtain ⟨-, ⟨_, hst⟩ | hst | hst⟩ := joining_iff.mp he <;> cases hst
  have hnl : c'.leaving → False := by
    intro he
    obtain ⟨-, ⟨_, hst⟩ | hst | hst⟩ := leaving_iff.mp he <;> cases hst
  constructor
  · intro j d hj'
    rcases hback hj' with ⟨rfl, rfl⟩ | ⟨hne, hj'⟩
    · refine ⟨fun _ => hcall.held hin, decide_eq_true hk, ?_, fun he => absurd he hnj,
        fun he => absurd he hnl, ?_, nofun, fun _ => hcall.locks hlocks, ?_, hcall.grant,
        hcall.examined, hcall.revoked, ?_, ?_, ?_, hcall.cleared⟩
      · intro he
        exact ((Bool.or_eq_true_iff.mp he).elim hnj hnl).elim
      · intro hl
        cases hlocks.symm.trans hl
      · intro hl
        cases hlocks.symm.trans hl
      · intro v' hv
        cases hv
        exact ⟨hempty, hnodes⟩
      · intro v' hv _
        cases hv
        rfl
      · intro v' t hv hm
        cases hv
        exact hcall.grant t hm
    · have hd := h.calls j d hj'
      refine { hd with joining := ?_, leaving := ?_, lasts := ?_ }
      · intro hdj
        exact absurd (h.one hi hj' hin hdj) hne
      · intro hl
        exact (h.apart i j c d hi hj' hj hl).elim
      · intro v' hv hm
        have hold := hd.lasts v' hv hm
        rw [hch.free] at hold
        cases hold
  · intro j k d e hj' hk' hdj hel
    rcases hback hj' with ⟨rfl, rfl⟩ | ⟨-, hj'⟩
    · exact hnj hdj
    · rcases hback hk' with ⟨rfl, rfl⟩ | ⟨-, hk'⟩
      · exact hnl hel
      · exact h.apart j k d e hj' hk' hdj hel
  · intro j k d e t hj' hk' hr hjo
    rcases hback hk' with ⟨rfl, rfl⟩ | ⟨hne, hk'⟩
    · exact (hnj hjo).elim
    · exact absurd (h.one hi hk' hin hjo) hne
  · intro j k d e t w hj' hk' hr hv hm
    have hrev : ∃ d' : Call, s.calls[j]? = some d' ∧ d'.revoked = some t ∧
        d'.examined = d.examined := by
      rcases hback hj' with ⟨rfl, rfl⟩ | ⟨-, hj'⟩
      · exact ⟨c, hi, hr, rfl⟩
      · exact ⟨d, hj', hr, rfl⟩
    obtain ⟨d', hd', hr', he'⟩ := hrev
    rcases hback hk' with ⟨rfl, rfl⟩ | ⟨-, hk'⟩
    · cases hv
      exact absurd hm (h.granted j _ d' c t hd' hi hr' hj)
    · rw [← he']
      exact h.revoked j k d' e t w hd' hk' hr' hv hm
  · intro m t hm hmt
    cases hm
    exact hcall.grant t hmt

theorem Inv.answer (h : Inv s) (hi : s.calls[i]? = some c)
    (hs : stepCall s i c (.answer i ok) = some s') : Inv s' := by
  obtain ⟨hq, hs⟩ := Option.ite_none_right_eq_some.mp hs
  have hcall := h.calls i c hi
  have hk : c.kind = .join := by
    have ht := hcall.typed
    rw [Call.typed, hq] at ht
    exact of_decide_eq_true ht
  split at hs
  · cases hs
    exact h.save hi hk hq
  · cases hs
    have hj : c.joining := joining_iff.mpr ⟨hk, Or.inr (Or.inr hq)⟩
    refine h.close hi (fun _ => Or.inl (inside_of_joining hj)) (fun _ => hcall.early ?_) nofun
    rw [Call.early, hq, hj]
    rfl

/-- A leave or a detach that comes to its end. -/
theorem Inv.revoke (h : Inv s) (hi : s.calls[i]? = some c) (hq : c.stage = .consent)
    (hk : c.kind.locks = false) {st : Stage} (hst : st = .status ∨ st = .done true)
    (ha : s'.assignment = none) (ht : s'.token = s.token + 1) (hh : s'.holder = s.holder)
    (hcalls : s'.calls = s.calls.set i
      { c with stage := st, revoked := some s.token, cleared := s.assignment }) : Inv s' := by
  have hcall := h.calls i c hi
  have hl : c.leaving := leaving_iff.mpr ⟨hk, Or.inr (Or.inr hq)⟩
  let c' : Call := { c with stage := st, revoked := some s.token, cleared := s.assignment }
  have hback : ∀ {j : ℕ} {d : Call}, s'.calls[j]? = some d →
      j = i ∧ d = c' ∨ j ≠ i ∧ s.calls[j]? = some d := by
    intro j d hj
    rw [hcalls] at hj
    exact Table.set_cases hj
  have hnj : ∀ {d : Call} {j : ℕ}, s.calls[j]? = some d → d.joining → False :=
    fun hj hdj => h.apart _ i _ c hj hi hdj hl
  have hnj' : c'.joining → False := by
    intro he
    have hkj : c.kind = .join := (joining_iff.mp he).1
    rw [hkj] at hk
    cases hk
  have hnl' : c'.leaving → False := by
    intro he
    obtain ⟨-, hst'⟩ := leaving_iff.mp he
    rcases hst with rfl | rfl <;> rcases hst' with ⟨_, hst'⟩ | hst' | hst' <;> cases hst'
  constructor
  · intro j d hj
    rcases hback hj with ⟨rfl, rfl⟩ | ⟨-, hj⟩
    · refine ⟨?_, ?_, ?_, fun he => absurd he hnj', fun he => absurd he hnl', fun _ _ _ _ => rfl,
        ?_, ?_, fun _ => hcall.leaves hk, ?_, ?_, ?_, hcall.unowned, ?_, ?_, ?_⟩
      · intro hin
        have hkl : c.kind.locks := (Bool.and_eq_true_iff.mp hin).1
        cases hk.symm.trans hkl
      · rcases hst with rfl | rfl <;> rfl
      · intro he
        rcases hst with rfl | rfl
        · exact ((Bool.or_eq_true_iff.mp he).elim hnj' hnl').elim
        · cases he
      · intro hst'
        rcases hst with rfl | rfl <;> cases hst'
      · intro hkl
        cases hkl.symm.trans hk
      · intro t hg
        have hle := hcall.grant t hg
        omega
      · intro m t hm hmt
        have hle := (hcall.examined m t hm hmt).1
        exact ⟨by omega, fun _ => by omega⟩
      · intro t hr
        have hrt := Option.some.inj hr
        omega
      · intro v hv
        have hnone : c'.saved = none := hcall.leaves hk
        cases hnone.symm.trans hv
      · intro v t hv hm
        have hle := hcall.member v t hv hm
        omega
      · intro m hm
        exact hcall.leaving hl m hm
    · exact (h.calls j d hj).rotate ht (Or.inr ha) hh fun hdj => (hnj hj hdj).elim
  · intro j k d e hj hk' hdj hel
    rcases hback hj with ⟨rfl, rfl⟩ | ⟨-, hj⟩
    · exact hnj' hdj
    · exact hnj hj hdj
  · intro j k d e t hj hk' hr hjo
    rcases hback hk' with ⟨rfl, rfl⟩ | ⟨-, hk'⟩
    · exact (hnj' hjo).elim
    · exact (hnj hk' hjo).elim
  · intro j k d e t v hj hk' hr hv hm
    have hsaved : ∃ e' : Call, s.calls[k]? = some e' ∧ e'.saved = some v := by
      rcases hback hk' with ⟨rfl, rfl⟩ | ⟨-, hk'⟩
      · exact ⟨c, hi, hv⟩
      · exact ⟨e, hk', hv⟩
    obtain ⟨e', hk', hv'⟩ := hsaved
    rcases hback hj with ⟨rfl, rfl⟩ | ⟨-, hj⟩
    · -- A saved membership with the credential that is revoked is the assignment.
      cases hr
      exact hcall.leaving hl _ ((h.calls k e' hk').lasts v hv' hm)
    · exact h.revoked j k d e' t v hj hk' hr hv' hm
  · intro m t hm
    cases ha.symm.trans hm

theorem Inv.finish (h : Inv s) (hi : s.calls[i]? = some c) {outcome : Outcome}
    (hc : Alone s (.finish i outcome)) (hs : stepCall s i c (.finish i outcome) = some s') :
    Inv s' := by
  obtain ⟨hq, rfl⟩ := guard_some hs
  have hcall := h.calls i c hi
  have hk : c.kind.locks = false := by
    have ht := hcall.typed
    rw [Call.typed, hq] at ht
    exact Bool.not_eq_true' _ ▸ ht
  have hl : c.leaving := leaving_iff.mpr ⟨hk, Or.inr (Or.inr hq)⟩
  have hclose : Inv (s.close i c false) := by
    refine h.close hi (fun hkl => ?_) (fun _ => hcall.early ?_) nofun
    · cases hk.symm.trans hkl
    · rw [Call.early, hq, hl]
      exact Bool.or_true _
  cases outcome with
  | consentFails => exact hclose
  | revokeFails => exact hclose
  | clearFails => exact absurd rfl hc.1
  | adoptFails => exact absurd rfl hc.2
  | ok =>
    unfold State.finish
    dsimp only
    split
    · exact h.revoke hi hq hk (Or.inl rfl) rfl rfl rfl rfl
    · refine h.revoke hi hq hk (Or.inr rfl) rfl rfl ?_ rfl
      change (if c.kind.locks = true then none else s.holder) = s.holder
      rw [hk]
      rfl

/-! ## Every step -/

/-- A call that is made. -/
theorem Inv.begin (h : Inv s) {kind : Kind} (hc : Alone s (.begin kind))
    (hs : step s (.begin kind) = some s') : Inv s' := by
  cases hs
  have hback : ∀ {j : ℕ} {d : Call}, (s.calls ++ [s.begin kind])[j]? = some d →
      s.calls[j]? = some d ∨ d = s.begin kind := by
    intro j d hj
    exact (Table.append_cases hj).imp_right And.right
  have hnew : (s.begin kind).grant = none ∧ (s.begin kind).saved = none ∧
      (s.begin kind).revoked = none ∧ (s.begin kind).cleared = none ∧
      (s.begin kind).sent = none ∧ (s.begin kind).kind = kind := by
    unfold State.begin
    cases kind with
    | leave => cases s.assignment <;> exact ⟨rfl, rfl, rfl, rfl, rfl, rfl⟩
    | _ => exact ⟨rfl, rfl, rfl, rfl, rfl, rfl⟩
  have hnj : (s.begin kind).joining → False := by
    intro he
    obtain ⟨hk, hst⟩ := joining_iff.mp he
    rw [hnew.2.2.2.2.2] at hk
    subst hk
    rcases hst with ⟨_, hst⟩ | hst | hst <;> cases hst
  have hexamined : ∀ m, (s.begin kind).examined = some m → s.assignment = some m := by
    intro m hm
    unfold State.begin at hm
    cases kind with
    | register => cases hm
    | join => cases hm
    | leave =>
      cases ha : s.assignment with
      | none =>
        rw [ha] at hm
        cases hm
      | some m' =>
        rw [ha] at hm
        exact hm
    | detach => exact hm
  -- A leave that goes on has looked at the assignment there is.
  have hlooks : (s.begin kind).leaving → (s.begin kind).examined = s.assignment ∧
      (kind = .detach ∨ s.assignment ≠ none) := by
    intro hl
    unfold State.begin at hl ⊢
    cases kind with
    | register => cases hl
    | join => cases hl
    | leave =>
      cases ha : s.assignment with
      | none =>
        rw [ha] at hl
        cases hl
      | some m => exact ⟨rfl, Or.inr nofun⟩
    | detach => exact ⟨rfl, Or.inl rfl⟩
  constructor
  · intro j d hj
    rcases hback hj with hj | rfl
    · exact (h.calls j d hj).stay rfl rfl (h.calls j d hj).held
        fun hdj => ((h.calls j d hj).joining hdj).same rfl rfl rfl
    · obtain ⟨hg, hsv, hr, hcl, hsent, hk⟩ := hnew
      have hstage : (s.begin kind).inside = false ∧ (s.begin kind).typed = true ∧
          (kind.locks = false → (s.begin kind).stage = .done true ∨
            (s.begin kind).stage = .status → (s.begin kind).examined = none) := by
        unfold State.begin
        cases kind with
        | register | join => exact ⟨rfl, rfl, nofun⟩
        | leave =>
          cases s.assignment with
          | none => exact ⟨rfl, rfl, fun _ _ => rfl⟩
          | some m =>
            cases s.work.deployments with
            | true | false =>
              exact ⟨rfl, rfl, fun _ hst => by rcases hst with hst | hst <;> cases hst⟩
        | detach =>
          cases s.work.deployments with
          | true | false =>
            exact ⟨rfl, rfl, fun _ hst => by rcases hst with hst | hst <;> cases hst⟩
      refine ⟨fun hin => absurd (hstage.1.symm.trans hin) Bool.false_ne_true, hstage.2.1,
        fun _ => ⟨hsv, hr, hcl⟩, fun he => absurd he hnj, ?_, ?_, fun _ => ⟨hsent, hg⟩,
        fun _ => ⟨hr, hcl⟩, fun _ => hsv, ?_, ?_, ?_, ?_, ?_, ?_, ?_⟩
      · intro hl m hm
        exact (hlooks hl).1.trans hm
      · intro hkl hst m hm
        rw [hk] at hkl
        rw [hstage.2.2 hkl hst] at hm
        cases hm
      · intro t ht
        cases hg.symm.trans ht
      · intro m t hm hmt
        refine ⟨h.token m t (hexamined m hm) hmt, fun hr' => ?_⟩
        rw [hr] at hr'
        cases hr'
      · intro t ht
        cases hr.symm.trans ht
      · intro v hv
        cases hsv.symm.trans hv
      · intro v hv
        cases hsv.symm.trans hv
      · intro v t hv
        cases hsv.symm.trans hv
      · intro m hm
        cases hcl.symm.trans hm
  · intro j k d e hj hk hdj hel
    rcases hback hj with hj | rfl
    · rcases hback hk with hk | rfl
      · exact h.apart j k d e hj hk hdj hel
      · rcases (hlooks hel).2 with hdet | hsome
        · rw [hc hdet d (List.mem_of_getElem? hj)] at hdj
          cases hdj
        · exact hsome ((h.calls j d hj).joining hdj).free
    · exact hnj hdj
  · intro j k d e t hj hk hr hjo
    rcases hback hj with hj | rfl
    · rcases hback hk with hk | rfl
      · exact h.granted j k d e t hj hk hr hjo
      · exact (hnj hjo).elim
    · rw [hnew.2.2.1] at hr
      cases hr
  · intro j k d e t v hj hk hr hv hm
    rcases hback hj with hj | rfl
    · rcases hback hk with hk | rfl
      · exact h.revoked j k d e t v hj hk hr hv hm
      · rw [hnew.2.1] at hv
        cases hv
    · rw [hnew.2.2.1] at hr
      cases hr
  · exact h.token

/-- What the node owns or controls changes. -/
theorem Inv.around (h : Inv s) (hcalls : s'.calls = s.calls) (ha : s'.assignment = s.assignment)
    (ht : s'.token = s.token) (hh : s'.holder = s.holder)
    (hchecked : ∀ d ∈ s.calls, d.joining → Checked s d.stage → Checked s' d.stage) :
    Inv s' := by
  constructor
  · intro j d hj
    rw [hcalls] at hj
    have hd := h.calls j d hj
    exact hd.stay ha ht (fun hin => hh.trans (hd.held hin))
      fun hdj => hchecked d (List.mem_of_getElem? hj) hdj (hd.joining hdj)
  · rw [hcalls]
    exact h.apart
  · rw [hcalls]
    exact h.granted
  · rw [hcalls]
    exact h.revoked
  · rw [ha, ht]
    exact h.token

theorem Inv.work (h : Inv s) {w : Workloads} (hc : Alone s (.work w))
    (hs : step s (.work w) = some s') : Inv s' := by
  cases hs
  refine h.around rfl rfl rfl rfl fun d hd hdj hch => ?_
  have hw : w.Within s.work := hc ⟨d, hd, hdj⟩
  refine ⟨hch.free, ?_, ?_, fun hst => ?_, hch.nodes⟩
  · have hle := hw.saved
    rw [hch.saved] at hle
    exact Nat.le_zero.mp hle
  · have hle := hw.legacy
    rw [hch.legacy] at hle
    exact Nat.le_zero.mp hle
  · have hsub := hw.claims
    rw [hch.claims hst] at hsub
    exact Finset.subset_empty.mp hsub

theorem Inv.forget (h : Inv s) {nodes : ℕ} (hs : step s (.forget nodes) = some s') : Inv s' := by
  obtain ⟨hle, rfl⟩ := guard_some hs
  refine h.around rfl rfl rfl rfl fun d _ _ hch => ?_
  refine { hch with nodes := fun hst => ?_ }
  rw [hch.nodes hst] at hle
  exact Nat.le_zero.mp hle

theorem step_subject {a : Act} (ha : a.subject = some i) (hs : step s a = some s') :
    ∃ c : Call, s.calls[i]? = some c ∧ stepCall s i c a = some s' := by
  cases a with
  | begin kind | work w | forget nodes => cases ha
  | _ =>
    cases ha
    simp only [step, Act.subject] at hs
    split at hs
    case h_1 c hi => exact ⟨c, hi, hs⟩
    case h_2 => cases hs

theorem Inv.step {a : Act} (h : Inv s) (hc : Alone s a) (hs : step s a = some s') : Inv s' := by
  cases a with
  | begin kind => exact h.begin hc hs
  | work w => exact h.work hc hs
  | forget nodes => exact h.forget hs
  | acquire i =>
    obtain ⟨c, hi, hs⟩ := step_subject rfl hs
    exact h.acquire hi hc hs
  | inventory i docker =>
    obtain ⟨c, hi, hs⟩ := step_subject rfl hs
    exact h.inventory hi hs
  | reach i ok =>
    obtain ⟨c, hi, hs⟩ := step_subject rfl hs
    exact h.reach hi hs
  | pair i =>
    obtain ⟨c, hi, hs⟩ := step_subject rfl hs
    exact h.pair hi hs
  | answer i ok =>
    obtain ⟨c, hi, hs⟩ := step_subject rfl hs
    exact h.answer hi hs
  | adopted i ok =>
    obtain ⟨c, hi, hs⟩ := step_subject rfl hs
    exact h.adopted hi hc hs
  | unregistered i ok =>
    obtain ⟨c, hi, hs⟩ := step_subject rfl hs
    exact h.unregistered hi hs
  | finish i outcome =>
    obtain ⟨c, hi, hs⟩ := step_subject rfl hs
    exact h.finish hi hc hs
  | paired i added ok =>
    obtain ⟨c, hi, hs⟩ := step_subject rfl hs
    exact h.paired hi hs
  | statusDone i ok =>
    obtain ⟨c, hi, hs⟩ := step_subject rfl hs
    exact h.statusDone hi hc hs

theorem Init.inv (h : Init s) : Inv s := by
  have hnone : ∀ {i : ℕ} {c : Call}, s.calls[i]? = some c → False := by
    intro i c hi
    rw [h.calls] at hi
    cases hi
  exact ⟨fun i c hi => (hnone hi).elim, fun i j c d hi => (hnone hi).elim,
    fun i j c d t hi => (hnone hi).elim, fun i j c d t v hi => (hnone hi).elim, h.token⟩

/-- **Membership changes are orderly**, in every run in which the calls leave each other alone. -/
theorem orderly (h0 : Init s) (h : Reach SparkDeck.Onboarding.step Alone s s') : Orderly s' :=
  (h.invariant h0.inv fun _ _ _ hi hc hs => hi.step hc hs).order

/-! ## Two runs -/

/-- A worker with nothing of its own. -/
def worker : State :=
  ⟨some ⟨0, some 5⟩, 5, ⟨0, 0, ∅, ∅, Finset.Subset.refl _⟩, 0, 1, none, []⟩

theorem init_worker : Init worker where
  calls := rfl
  holder := rfl
  token := by
    intro m t hm ht
    cases hm
    cases ht
    exact Nat.le_refl _

/-- It leaves and joins again. -/
def moving : List Act :=
  [.begin .leave, .inventory 0 true, .unregistered 0 true, .finish 0 .ok, .statusDone 0 true,
    .begin .join, .acquire 1, .inventory 1 true, .reach 1 true, .pair 1, .answer 1 true]

/-- Two leaves begin, the first ends, the node joins, and the second ends. -/
def overlapping : List Act :=
  [.begin .leave, .begin .leave, .inventory 0 true, .inventory 1 true, .unregistered 0 true,
    .finish 0 .ok, .begin .join, .acquire 2, .inventory 2 true, .reach 2 true, .pair 2,
    .answer 2 true, .unregistered 1 true, .finish 1 .ok]

theorem orderly_moving : ∃ t, Reach SparkDeck.Onboarding.step Alone worker t ∧
    t.assignment = some ⟨1, some 7⟩ ∧ Orderly t := by
  have hrun : (replay SparkDeck.Onboarding.step Alone worker moving).any
      (fun t => decide (t.assignment = some ⟨1, some 7⟩)) = true := by decide +kernel
  obtain ⟨t, ht, hp⟩ := reach_any hrun
  exact ⟨t, ht, of_decide_eq_true hp, orderly init_worker ht⟩

/-- **A join undone** by a leave that began before it. -/
theorem undone : ∃ t, Reach SparkDeck.Onboarding.step Free worker t ∧ ¬Orderly t := by
  have hrun : (replay SparkDeck.Onboarding.step Free worker overlapping).any
      (fun t => t.calls[1]?.any fun c => decide (c.cleared = some ⟨1, some 7⟩) &&
        decide (c.examined = some ⟨0, some 5⟩)) = true := by decide +kernel
  obtain ⟨t, ht, hp⟩ := reach_any hrun
  obtain ⟨c, hc, hp⟩ := (Option.any_eq_true _ _).mp hp
  rw [Bool.and_eq_true, decide_eq_true_eq, decide_eq_true_eq] at hp
  refine ⟨t, ht, fun h => ?_⟩
  have he := h.cleared 1 c _ hc hp.1
  rw [hp.2] at he
  cases he

end SparkDeck.Onboarding
