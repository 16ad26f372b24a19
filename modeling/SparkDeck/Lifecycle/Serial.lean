import SparkDeck.Lifecycle.Locks

/-!
# Lifecycle calls on one record are serialised

`Announced` is about the launches in flight: an event in the table belongs to a creation that has
not settled or to a start in its locked part. Where every record is addressed by one of its names at
a time (`OneName`), a delete therefore waits for creations only, and nobody takes their event out of
the table before they set it.

`lost` is a run without that: the record is started by its id and deleted by its alias.
-/

namespace SparkDeck.Lifecycle

open Dict Transition Function

variable {s s' : State} {i : ℕ} {c : Call}

/-! ## The names -/

/-- Two calls in progress that could address one record have the same key. -/
def Apart (s : State) : Prop :=
  ∀ (i j : ℕ) (c d : Call) (r : Row), s.calls[i]? = some c → s.calls[j]? = some d →
    c.stage ≠ .done → d.stage ≠ .done → r ∈ s.rows → r.named c.key →
    r.named d.key → c.key = d.key

theorem Apart.move (h : Apart s) (hi : s.calls[i]? = some c) (hc : c.stage ≠ .done) {st : Stage}
    (hcalls : s'.calls = s.calls.set i { c with stage := st })
    (hrows : ∀ r ∈ s'.rows, r ∈ s.rows) : Apart s' := by
  -- Whoever is in progress was so before, under the same key.
  have hback : ∀ (j : ℕ) (d : Call), s'.calls[j]? = some d → d.stage ≠ .done →
      ∃ d', s.calls[j]? = some d' ∧ d'.stage ≠ .done ∧ d'.key = d.key := by
    intro j d hj hd
    rw [hcalls] at hj
    rcases Table.set_cases hj with ⟨rfl, rfl⟩ | ⟨-, hj⟩
    · exact ⟨c, hi, hc, rfl⟩
    · exact ⟨d, hj, hd, rfl⟩
  intro j k d e r hj hk hd he hr hnd hne
  obtain ⟨d', hj', hd', hkd⟩ := hback j d hj hd
  obtain ⟨e', hk', he', hke⟩ := hback k e hk he
  rw [← hkd] at hnd ⊢
  rw [← hke] at hne ⊢
  exact h j k d' e' r hj' hk' hd' he' (hrows r hr) hnd hne

variable {key : String}

theorem Apart.call (h : Apart s) {kind : Kind} (hc : OneName s (.call kind key))
    (hs : step s (.call kind key) = some s') : Apart s' := by
  cases hs
  -- The new call against one that was there.
  have hnew : ∀ (j : ℕ) (d : Call) (r : Row), s.calls[j]? = some d → d.stage ≠ .done →
      r ∈ s.rows → r.named d.key → r.named key → d.key = key := by
    intro j d r hj hd hr hnd hnk
    by_contra hne
    rw [hc d (List.mem_of_getElem? hj) hd hne r hr hnd] at hnk
    cases hnk
  intro j k d e r hj hk hd he hr hnd hne
  rcases Table.append_cases hj with hj | ⟨-, rfl⟩
  · rcases Table.append_cases hk with hk | ⟨-, rfl⟩
    · exact h j k d e r hj hk hd he hr hnd hne
    · exact hnew j d r hj hd hr hnd hne
  · rcases Table.append_cases hk with hk | ⟨-, rfl⟩
    · exact (hnew k e r hk he hr hne hnd).symm
    · rfl

/-- Of two calls inside, one addresses the record. -/
theorem one_inside (hl : Locked s) (ha : Apart s) {j : ℕ} {d : Call} {r : Row}
    (hi : s.calls[i]? = some c) (hj : s.calls[j]? = some d) (hc : c.stage.inside)
    (hd : d.stage.inside) (hr : r ∈ s.rows) (hnc : r.named c.key)
    (hnd : r.named d.key) : i = j :=
  hl.one hi hj hc hd
    (ha i j c d r hi hj (ne_done_of_inside hc) (ne_done_of_inside hd) hr hnc hnd)

/-! ## The launches in flight -/

/-- Where a start has its event in the table. -/
def Stage.body : Stage → Bool
  | .working _ => true
  | .launching _ _ => true
  | .ending => true
  | _ => false

/-- The record a stage is about. -/
def Stage.on : Stage → Option String
  | .working record => record
  | .launching record _ => some record
  | _ => none

/-- A creation is going to set the event. -/
def Pending (s : State) (k : String) (e : ℕ) : Prop :=
  ∃ x ∈ s.creations, x.settled = false ∧ x.record = k ∧ x.event = e

/-- Who has an entry of `_deployment_launches`. -/
def Owner (s : State) (k : String) (e : ℕ) : Prop :=
  Pending s k e ∨ ∃ (i : ℕ) (c : Call), s.calls[i]? = some c ∧
    (c.stage.body ∧ c.kind = .start ∧ c.key = k ∨ ∃ own, c.stage = .launching k own)

/-- The launch a delete waits for has settled, or it is a creation that has not. -/
def Woken (s : State) (key k : String) (e : ℕ) : Prop :=
  s.isSet e ∨ s.launches.get k = some e ∧ Pending s k e ∧
    ∃ r ∈ s.rows, r.id = k ∧ r.named key

structure Announced (s : State) : Prop where
  ids : (s.rows.map Row.id).Nodup
  records : (s.creations.map Creation.record).Nodup
  entry : ∀ k e, s.launches.get k = some e → Owner s k e
  target : ∀ (i : ℕ) (c : Call) (k : String), s.calls[i]? = some c → c.stage.on = some k →
    ∀ r ∈ s.rows, r.id = k → r.named c.key
  waiting : ∀ (i : ℕ) (c : Call) (k : String) (e : ℕ), s.calls[i]? = some c →
    c.stage = .waiting k e → Woken s c.key k e

variable {k : String}

/-- An entry keeps its owner, if the call that moves does not give it up. -/
theorem Owner.keep {e : ℕ} (h : Owner s k e) (hi : s.calls[i]? = some c) {st : Stage}
    (hcalls : s'.calls = s.calls.set i { c with stage := st })
    (hcreations : s'.creations = s.creations)
    (hkey : c.stage.body → c.kind = .start → c.key = k → st.body)
    (hon : ∀ own, c.stage = .launching k own → st = c.stage) : Owner s' k e := by
  rcases h with hp | ⟨j, d, hj, hd⟩
  · left
    unfold Pending
    rw [hcreations]
    exact hp
  · right
    rw [hcalls]
    by_cases hij : j = i
    · subst hij
      cases hi.symm.trans hj
      refine ⟨j, _, Table.get_set_self hi, ?_⟩
      rcases hd with ⟨hb, hk, he⟩ | ⟨own, ho⟩
      · exact Or.inl ⟨hkey hb hk he, hk, he⟩
      · exact Or.inr ⟨own, (hon own ho).trans ho⟩
    · exact ⟨j, d, Table.get_set_ne hj hij, hd⟩

/-- What a step of a call inside keeps of the launches. -/
theorem Announced.move (h : Announced s) (hl : Locked s) (ha : Apart s)
    (hi : s.calls[i]? = some c) (hin : c.stage.inside) {st : Stage} {p : Row → Bool}
    (hcalls : s'.calls = s.calls.set i { c with stage := st })
    (hcreations : s'.creations = s.creations) (hrows : s'.rows = s.rows.filter p)
    (hkeep : ∀ r, r.named c.key = false → p r = true)
    (hset : ∀ e, s.isSet e → s'.isSet e)
    (hlaunches : ∀ k e, s.launches.get k = some e →
      s'.launches.get k = some e ∨ k = c.key ∨ c.stage.on = some k)
    (hentry : ∀ k e, s'.launches.get k = some e → Owner s' k e)
    (htarget : ∀ k, st.on = some k → ∀ r ∈ s.rows, r.id = k → r.named c.key)
    (hwait : ∀ k e, st = .waiting k e → Woken s' c.key k e) : Announced s' := by
  constructor
  · rw [hrows]
    exact h.ids.sublist (List.filter_sublist.map Row.id)
  · rw [hcreations]
    exact h.records
  · exact hentry
  · intro j d k hj hd r hr
    rw [hcalls] at hj
    rw [hrows] at hr
    rcases Table.set_cases hj with ⟨rfl, rfl⟩ | ⟨-, hj⟩
    · exact htarget k hd r (List.mem_filter.mp hr).1
    · exact h.target j d k hj hd r (List.mem_filter.mp hr).1
  · intro j d k e hj hd
    rw [hcalls] at hj
    rcases Table.set_cases hj with ⟨rfl, rfl⟩ | ⟨hij, hj⟩
    · exact hwait k e hd
    rcases h.waiting j d k e hj hd with hset' | ⟨hget, hp, r, hr, hrk, hnd⟩
    · exact Or.inl (hset e hset')
    -- The call that moves does not address the record that `j` waits for.
    have hapart : r.named c.key = false := by
      by_contra hno
      rw [Bool.not_eq_false] at hno
      exact hij (one_inside hl ha hj hi (by rw [hd]; rfl) hin hr hnd hno)
    right
    refine ⟨?_, ?_, r, ?_, hrk, hnd⟩
    · rcases hlaunches k e hget with hk | hk | hk
      · exact hk
      · have hself : r.named c.key := by
          rw [Row.named, hrk, hk, beq_self_eq_true, Bool.true_or]
        cases hapart.symm.trans hself
      · rw [h.target i c k hi hk r hr hrk] at hapart
        cases hapart
    · unfold Pending
      rw [hcreations]
      exact hp
    · rw [hrows]
      exact List.mem_filter.mpr ⟨hr, hkeep r hapart⟩

/-! ## Every step -/

/-- The alias lock is with a call that scans. -/
def Scanned (s : State) : Prop :=
  ∀ i, s.aliasHolder = some i → ∃ c : Call, s.calls[i]? = some c ∧ c.stage = .scanning

theorem Scanned.move (h : Scanned s) (hi : s.calls[i]? = some c) (hc : c.stage ≠ .scanning)
    {st : Stage} (hcalls : s'.calls = s.calls.set i { c with stage := st })
    (halias : s'.aliasHolder = s.aliasHolder) : Scanned s' := by
  intro j hj
  rw [halias] at hj
  obtain ⟨d, hd, hs⟩ := h j hj
  have hij : j ≠ i := by
    rintro rfl
    cases hi.symm.trans hd
    exact hc hs
  rw [hcalls]
  exact ⟨d, Table.get_set_ne hd hij, hs⟩

theorem Scanned.free (h : s.aliasHolder = none) : Scanned s := by
  intro i hi
  cases h.symm.trans hi

structure Inv (s : State) : Prop where
  locked : Locked s
  apart : Apart s
  announced : Announced s
  scanned : Scanned s

theorem rows_all (rows : List Row) : rows = rows.filter fun _ => true :=
  (List.filter_eq_self.mpr fun _ _ => rfl).symm

/-- A step of a call that has no event in the table, and takes none out. -/
theorem Inv.plain (h : Inv s) (hi : s.calls[i]? = some c) (hin : c.stage.inside)
    (hbody : c.stage.body = false) {st : Stage} {p : Row → Bool} (hlocked : Locked s')
    (hscanned : Scanned s') (hcalls : s'.calls = s.calls.set i { c with stage := st })
    (hcreations : s'.creations = s.creations) (hrows : s'.rows = s.rows.filter p)
    (hkeep : ∀ r, r.named c.key = false → p r = true) (hset : s'.isSet = s.isSet)
    (hlaunches : s'.launches = s.launches)
    (htarget : ∀ k, st.on = some k → ∀ r ∈ s.rows, r.id = k → r.named c.key)
    (hwait : ∀ k e, st = .waiting k e → Woken s' c.key k e) : Inv s' := by
  refine ⟨hlocked, ?_, ?_, hscanned⟩
  · refine h.apart.move hi (ne_done_of_inside hin) hcalls fun r hr => ?_
    rw [hrows] at hr
    exact (List.mem_filter.mp hr).1
  · refine h.announced.move h.locked h.apart hi hin hcalls hcreations hrows hkeep ?_ ?_ ?_ htarget
      hwait
    · intro e he
      rwa [hset]
    · intro k e hk
      rw [hlaunches]
      exact Or.inl hk
    · intro k e hk
      rw [hlaunches] at hk
      refine (h.announced.entry k e hk).keep hi hcalls hcreations ?_ ?_
      · intro hb
        cases hbody.symm.trans hb
      · intro own ho
        rw [ho] at hbody
        cases hbody

/-- A call that leaves, with no event in the table. -/
theorem Inv.leave (h : Inv s) (hi : s.calls[i]? = some c) (hin : c.stage.inside)
    (hbody : c.stage.body = false) (hscan : c.stage ≠ .scanning) : Inv (s.leave i c) :=
  h.plain hi hin hbody (h.locked.leave hi hin) (h.scanned.move hi hscan rfl rfl) rfl rfl
    (rows_all _) (fun _ _ => rfl) rfl rfl nofun nofun

theorem lookup_some {rows : List Row} {r : Row} (h : lookup rows key = some r) :
    r ∈ rows ∧ r.named key := by
  have hnamed := @List.find?_some _ (fun r : Row => r.named key) r rows h
  exact ⟨List.mem_of_find?_eq_some h, hnamed⟩

/-- The record a call finds has its key for a name. -/
theorem Announced.named (h : Announced s) (hk : s.target c = some k) :
    ∃ r ∈ s.rows, r.id = k ∧ r.named c.key ∧
      ∀ r' ∈ s.rows, r'.id = k → r' = r := by
  obtain ⟨r, hr, rfl⟩ := Option.map_eq_some_iff.mp hk
  obtain ⟨hmem, hnamed⟩ := lookup_some hr
  exact ⟨r, hmem, rfl, hnamed, fun r' hr' he => List.inj_on_of_nodup_map h.ids hr' hmem he⟩

theorem Announced.target_named (h : Announced s) (hk : s.target c = some k) :
    ∀ r ∈ s.rows, r.id = k → r.named c.key := by
  obtain ⟨r, -, -, hnamed, huniq⟩ := h.named hk
  intro r' hr' he
  rw [huniq r' hr' he]
  exact hnamed

theorem Inv.acquire (h : Inv s) (hi : s.calls[i]? = some c)
    (hs : stepCall s i c (.acquire i) = some s') : Inv s' := by
  obtain ⟨hq, rfl⟩ := guard_some hs
  have hc : c.stage ≠ .done := by rw [hq.1]; exact nofun
  have hne : ∀ (j : ℕ) (d : Call), (s.calls.set i { c with stage := .locked })[j]? = some d →
      d.stage ≠ .locked → s.calls[j]? = some d := by
    intro j d hj hd
    rcases Table.set_cases hj with ⟨-, rfl⟩ | ⟨-, hj⟩
    · exact absurd rfl hd
    · exact hj
  refine ⟨h.locked.acquire hi hq.1 hq.2 rfl rfl rfl rfl rfl,
    h.apart.move hi hc rfl fun _ hr => hr, ⟨h.announced.ids, h.announced.records, ?_, ?_, ?_⟩,
    h.scanned.move hi (by rw [hq.1]; exact nofun) rfl rfl⟩
  · intro k e hk
    refine (h.announced.entry k e hk).keep hi rfl rfl ?_ ?_
    · intro hb
      rw [hq.1] at hb
      cases hb
    · intro own ho
      rw [hq.1] at ho
      cases ho
  · intro j d k hj hd
    refine h.announced.target j d k (hne j d hj ?_) hd
    rintro he
    rw [he] at hd
    cases hd
  · intro j d k e hj hd
    refine h.announced.waiting j d k e (hne j d hj ?_) hd
    rw [hd]
    exact nofun

/-- What a delete waits for. -/
theorem Inv.awaited (h : Inv s) (hi : s.calls[i]? = some c) (hq : c.stage = .locked) {e : ℕ}
    (hw : s.awaited c = .waiting k e) : Woken s c.key k e := by
  unfold State.awaited at hw
  split at hw
  case h_1 => cases hw
  case h_2 record hrecord =>
    split at hw
    case h_1 event hget =>
      obtain ⟨rfl, rfl⟩ := Stage.waiting.inj hw
      obtain ⟨r, hr, hrk, hnamed, -⟩ := h.announced.named hrecord
      rcases h.announced.entry record event hget with hp | ⟨j, d, hj, hd⟩
      · exact Or.inr ⟨hget, hp, r, hr, hrk, hnamed⟩
      · exfalso
        -- A start on the record would be in its locked part under the same key.
        have hd' : d.stage.inside ∧ d.stage ≠ .locked ∧ r.named d.key := by
          rcases hd with ⟨hb, -, hk⟩ | ⟨own, ho⟩
          · refine ⟨?_, ?_, ?_⟩
            · cases hst : d.stage <;> rw [hst] at hb <;> first | rfl | cases hb
            · rintro hst
              rw [hst] at hb
              cases hb
            · rw [Row.named, hrk, hk, beq_self_eq_true, Bool.true_or]
          · refine ⟨by rw [ho]; rfl, by rw [ho]; exact nofun, ?_⟩
            exact h.announced.target j d record hj (by rw [ho]; rfl) r hr hrk
        obtain rfl := one_inside h.locked h.apart hi hj (by rw [hq]; rfl) hd'.1 hr hnamed hd'.2.2
        cases hi.symm.trans hj
        exact hd'.2.1 hq
    case h_2 => cases hw

theorem Inv.enter (h : Inv s) (hi : s.calls[i]? = some c)
    (hs : stepCall s i c (.enter i) = some s') : Inv s' := by
  obtain ⟨hq, rfl⟩ := guard_some hs
  have hin : c.stage.inside := by rw [hq]; rfl
  have hbody : c.stage.body = false := by rw [hq]; rfl
  have hscan : c.stage ≠ .scanning := by rw [hq]; exact nofun
  have hmove : ∀ st : Stage, st.inside →
      (∀ k, st.on = some k → ∀ r ∈ s.rows, r.id = k → r.named c.key) →
      (∀ k e, st = .waiting k e → Woken s c.key k e) → Inv (s.move i c st) :=
    fun st hst htarget hwait =>
      h.plain hi hin hbody (h.locked.move hi hin hst rfl rfl rfl rfl rfl)
        (h.scanned.move hi hscan rfl rfl) rfl rfl (rows_all _) (fun _ _ => rfl) rfl rfl htarget
        hwait
  unfold State.enter
  split
  · refine hmove _ ?_ ?_ fun k e hw => h.awaited hi hq hw
    · unfold State.awaited
      split
      · rfl
      · split <;> rfl
    · unfold State.awaited
      split
      · exact nofun
      · split <;> exact nofun
  · split
    · exact h.leave hi hin hbody hscan
    · exact hmove _ rfl (fun k hk => h.announced.target_named hk) nofun
  · split
    · exact h.leave hi hin hbody hscan
    · exact hmove _ rfl nofun nofun

theorem Inv.acquireAlias (h : Inv s) (hi : s.calls[i]? = some c)
    (hs : stepCall s i c (.acquireAlias i) = some s') : Inv s' := by
  obtain ⟨hq, rfl⟩ := guard_some hs
  have hin : c.stage.inside := by rw [hq.1]; rfl
  refine h.plain hi hin (by rw [hq.1]; rfl) (h.locked.move hi hin rfl rfl rfl rfl rfl rfl) ?_ rfl
    rfl (rows_all _) (fun _ _ => rfl) rfl rfl nofun nofun
  intro j hj
  cases hj
  exact ⟨_, Table.get_set_self hi, rfl⟩

theorem Inv.scanned' (h : Inv s) (hi : s.calls[i]? = some c) {ok : Bool}
    (hs : stepCall s i c (.scanned i ok) = some s') : Inv s' := by
  obtain ⟨hq, rfl⟩ := guard_some hs
  have hin : c.stage.inside := by rw [hq]; rfl
  have hbody : c.stage.body = false := by rw [hq]; rfl
  have hlocked : Locked { s with aliasHolder := none } :=
    ⟨h.locked.counted, h.locked.tabled, h.locked.used, h.locked.apart, h.locked.fresh,
      h.locked.held, h.locked.holds⟩
  unfold State.scanned
  split
  · exact h.plain hi hin hbody (hlocked.leave hi hin) (Scanned.free rfl) rfl rfl (rows_all _)
      (fun _ _ => rfl) rfl rfl nofun nofun
  · split
    case isTrue hstart =>
      refine ⟨h.locked.move hi hin rfl rfl rfl rfl rfl rfl,
        h.apart.move hi (ne_done_of_inside hin) rfl fun _ hr => hr, ?_, Scanned.free rfl⟩
      refine h.announced.move h.locked h.apart hi hin rfl rfl (rows_all _) (fun _ _ => rfl)
        (fun _ he => he) ?_ ?_ (fun k hk => h.announced.target_named hk) nofun
      · intro k e hk
        left
        change (s.launches.setdefault c.key s.events).get k = some e
        rw [get_setdefault]
        split
        case isTrue hkey => rw [← hkey, hk, Option.getD_some]
        case isFalse => exact hk
      · intro k e hk
        change (s.launches.setdefault c.key s.events).get k = some e at hk
        rw [get_setdefault] at hk
        split at hk
        case isTrue hkey =>
          exact Or.inr ⟨i, _, Table.get_set_self hi, Or.inl ⟨rfl, hstart, hkey.symm⟩⟩
        case isFalse =>
          refine (h.announced.entry k e hk).keep hi rfl rfl ?_ ?_
          · intro hb
            cases hbody.symm.trans hb
          · intro own ho
            cases hq.symm.trans ho
    case isFalse =>
      exact h.plain hi hin hbody (h.locked.move hi hin rfl rfl rfl rfl rfl rfl)
        (Scanned.free rfl) rfl rfl (rows_all _) (fun _ _ => rfl) rfl rfl
        (fun k hk => h.announced.target_named hk) nofun

theorem Inv.launch (h : Inv s) (hi : s.calls[i]? = some c)
    (hs : stepCall s i c (.launch i) = some s') : Inv s' := by
  simp only [stepCall] at hs
  split at hs
  case h_1 record hq =>
    obtain ⟨hstart, rfl⟩ := guard_some hs
    have hin : c.stage.inside := by rw [hq]; rfl
    refine ⟨h.locked.move hi hin rfl rfl rfl rfl rfl rfl,
      h.apart.move hi (ne_done_of_inside hin) rfl fun _ hr => hr, ?_,
      h.scanned.move hi (by rw [hq]; exact nofun) rfl rfl⟩
    refine h.announced.move h.locked h.apart hi hin rfl rfl (rows_all _) (fun _ _ => rfl)
      (fun _ he => he) ?_ ?_ ?_ nofun
    · intro k e hk
      left
      change (s.launches.setdefault record s.events).get k = some e
      rw [get_setdefault]
      split
      case isTrue hkey => rw [← hkey, hk, Option.getD_some]
      case isFalse => exact hk
    · intro k e hk
      change (s.launches.setdefault record s.events).get k = some e at hk
      rw [get_setdefault] at hk
      split at hk
      case isTrue hkey =>
        exact Or.inr ⟨i, _, Table.get_set_self hi, Or.inr ⟨s.events, by rw [hkey]⟩⟩
      case isFalse =>
        refine (h.announced.entry k e hk).keep hi rfl rfl (fun _ _ _ => rfl) ?_
        intro own ho
        cases hq.symm.trans ho
    · rintro k ⟨⟩
      exact h.announced.target i c record hi (by rw [hq]; rfl)
  case h_2 => cases hs

theorem Inv.settle (h : Inv s) (hi : s.calls[i]? = some c)
    (hs : stepCall s i c (.settle i) = some s') : Inv s' := by
  simp only [stepCall] at hs
  split at hs
  case h_1 record event hq =>
    cases hs
    have hin : c.stage.inside := by rw [hq]; rfl
    refine ⟨h.locked.move hi hin rfl rfl rfl rfl rfl rfl,
      h.apart.move hi (ne_done_of_inside hin) rfl fun _ hr => hr, ?_,
      h.scanned.move hi (by rw [hq]; exact nofun) rfl rfl⟩
    refine h.announced.move h.locked h.apart hi hin rfl rfl (rows_all _) (fun _ _ => rfl)
      ?_ ?_ ?_ nofun nofun
    · intro e he
      change update s.isSet event true e = true
      rw [update_apply]
      split
      · rfl
      · exact he
    · intro k e hk
      by_cases hkey : k = record
      · exact Or.inr (Or.inr (by rw [hq, hkey]; rfl))
      · exact Or.inl ((get_erase _ _ _).trans ((if_neg hkey).trans hk))
    · intro k e hk
      have hk' := (get_erase s.launches k record).symm.trans hk
      split at hk'
      case isTrue => cases hk'
      case isFalse hkey =>
        refine (h.announced.entry k e hk').keep hi rfl rfl (fun _ _ _ => rfl) ?_
        intro own ho
        rw [hq] at ho
        exact absurd (Stage.launching.inj ho).1.symm hkey
  case h_2 => cases hs

/-- The end of an action. -/
theorem Inv.finished (h : Inv s) (hi : s.calls[i]? = some c) (hbody : c.stage.body)
    (hno : ∀ k own, c.stage ≠ .launching k own) : Inv (s.finish i c) := by
  have hin : c.stage.inside := by
    cases hst : c.stage <;> rw [hst] at hbody <;> first | rfl | cases hbody
  have hscan : c.stage ≠ .scanning := by
    intro hst
    rw [hst] at hbody
    cases hbody
  unfold State.finish
  split
  case isTrue hstart =>
    have hlocked : Locked (s.pop c.key) :=
      ⟨h.locked.counted, h.locked.tabled, h.locked.used, h.locked.apart, h.locked.fresh,
        h.locked.held, h.locked.holds⟩
    refine ⟨hlocked.leave hi hin, h.apart.move hi (ne_done_of_inside hin) rfl fun _ hr => hr, ?_,
      h.scanned.move hi hscan rfl rfl⟩
    refine h.announced.move h.locked h.apart hi hin rfl rfl (rows_all _) (fun _ _ => rfl)
      (fun _ he => he) ?_ ?_ nofun nofun
    · intro k e hk
      by_cases hkey : k = c.key
      · exact Or.inr (Or.inl hkey)
      · exact Or.inl ((get_erase _ _ _).trans ((if_neg hkey).trans hk))
    · intro k e hk
      have hk' := (get_erase s.launches k c.key).symm.trans hk
      split at hk'
      case isTrue => cases hk'
      case isFalse hkey =>
        refine (h.announced.entry k e hk').keep hi rfl rfl ?_ fun own ho => absurd ho (hno k own)
        intro _ _ he
        exact absurd he.symm hkey
  case isFalse hstart =>
    refine ⟨h.locked.leave hi hin, h.apart.move hi (ne_done_of_inside hin) rfl fun _ hr => hr, ?_,
      h.scanned.move hi hscan rfl rfl⟩
    refine h.announced.move h.locked h.apart hi hin rfl rfl (rows_all _) (fun _ _ => rfl)
      (fun _ he => he) (fun k e hk => Or.inl hk) ?_ nofun nofun
    intro k e hk
    refine (h.announced.entry k e hk).keep hi rfl rfl ?_ fun own ho => absurd ho (hno k own)
    intro _ hs
    exact absurd hs hstart

theorem Inv.finish (h : Inv s) (hi : s.calls[i]? = some c)
    (hs : stepCall s i c (.finish i) = some s') : Inv s' := by
  simp only [stepCall] at hs
  split at hs
  case h_1 hq | h_2 hq =>
    cases hs
    exact h.finished hi (by rw [hq]; rfl) (by rw [hq]; exact nofun)
  case h_3 => cases hs

theorem Inv.wake (h : Inv s) (hi : s.calls[i]? = some c)
    (hs : stepCall s i c (.wake i) = some s') : Inv s' := by
  simp only [stepCall] at hs
  split at hs
  case h_1 k e hq =>
    split at hs
    · cases hs
      have hin : c.stage.inside := by rw [hq]; rfl
      exact h.plain hi hin (by rw [hq]; rfl) (h.locked.move hi hin rfl rfl rfl rfl rfl rfl)
        (h.scanned.move hi (by rw [hq]; exact nofun) rfl rfl) rfl rfl (rows_all _) (fun _ _ => rfl)
        rfl rfl nofun nofun
    · cases hs
  case h_2 => cases hs

theorem Inv.remove (h : Inv s) (hi : s.calls[i]? = some c) {ok : Bool}
    (hs : stepCall s i c (.remove i ok) = some s') : Inv s' := by
  obtain ⟨hq, rfl⟩ := guard_some hs
  have hin : c.stage.inside := by rw [hq]; rfl
  have hlocked : ∀ rows, Locked { s with rows := rows } := fun _ =>
    ⟨h.locked.counted, h.locked.tabled, h.locked.used, h.locked.apart, h.locked.fresh,
      h.locked.held, h.locked.holds⟩
  refine @Inv.plain s (s.remove i c ok) i c h hi hin (by rw [hq]; rfl) .done
    (fun r => !ok || decide (r.id ≠ c.key)) ((hlocked _).leave hi hin)
    (h.scanned.move hi (by rw [hq]; exact nofun) rfl rfl) rfl rfl ?_ ?_ rfl rfl nofun nofun
  · change (if ok = true then s.rows.filter (·.id ≠ c.key) else s.rows) = _
    cases ok with
    | true => rfl
    | false => exact rows_all _
  · intro r hr
    rw [Bool.or_eq_true, decide_eq_true_eq]
    right
    rintro he
    rw [Row.named, he, beq_self_eq_true, Bool.true_or] at hr
    cases hr

/-- Two creations have two records. -/
theorem Announced.creation_unique (h : Announced s) {x y : Creation} (hx : x ∈ s.creations)
    (hy : y ∈ s.creations) (he : x.record = y.record) : x = y :=
  List.inj_on_of_nodup_map h.records hx hy he

theorem Inv.settleCreation (h : Inv s) {j : ℕ} {keep : Bool}
    (hs : step s (.settleCreation j keep) = some s') : Inv s' := by
  simp only [step] at hs
  split at hs
  case h_1 x hx =>
    obtain ⟨hopen, hs⟩ := Option.ite_none_left_eq_some.mp hs
    cases hs
    have hmem := List.mem_of_getElem? hx
    -- The creations of the other records are as they were.
    have hpending : ∀ k e, Pending s k e → k ≠ x.record →
        ∃ y ∈ s.creations.set j { x with settled := true },
          y.settled = false ∧ y.record = k ∧ y.event = e := by
      rintro k e ⟨y, hy, hyo, rfl, rfl⟩ hne
      obtain ⟨m, hm⟩ := List.getElem?_of_mem hy
      have hmj : m ≠ j := by
        rintro rfl
        cases hx.symm.trans hm
        exact hne rfl
      exact ⟨y, List.mem_of_getElem? (Table.get_set_ne hm hmj), hyo, rfl, rfl⟩
    have hrows : ∀ r, r ∈ (if keep then s.rows else s.rows.filter (·.id ≠ x.record)) →
        r ∈ s.rows := by
      intro r hr
      split at hr
      · exact hr
      · exact (List.mem_filter.mp hr).1
    refine ⟨⟨h.locked.counted, h.locked.tabled, h.locked.used, h.locked.apart, h.locked.fresh,
      h.locked.held, h.locked.holds⟩, ?_, ⟨?_, ?_, ?_, ?_, ?_⟩, h.scanned⟩
    · intro m n d e r hm hn hd he hr
      exact h.apart m n d e r hm hn hd he (hrows r hr)
    · dsimp only
      split
      · exact h.announced.ids
      · exact h.announced.ids.sublist (List.filter_sublist.map Row.id)
    · dsimp only
      have hsame : (s.creations.set j { x with settled := true }).map Creation.record =
          s.creations.map Creation.record := by
        rw [List.map_set]
        refine List.ext_getElem? fun m => ?_
        rw [List.getElem?_set]
        split
        case isTrue hjm =>
          subst hjm
          rw [List.getElem?_map, hx]
          split
          · rfl
          · rename_i hlen
            rw [List.length_map] at hlen
            exact absurd (List.getElem?_eq_some_iff.mp hx).1 hlen
        case isFalse => rfl
      rw [hsame]
      exact h.announced.records
    · intro k e hk
      have hk' := (get_erase s.launches k x.record).symm.trans hk
      split at hk'
      case isTrue => cases hk'
      case isFalse hkey =>
        rcases h.announced.entry k e hk' with hp | hcall
        · exact Or.inl (hpending k e hp hkey)
        · exact Or.inr hcall
    · intro m d k hm hd r hr
      exact h.announced.target m d k hm hd r (hrows r hr)
    · intro m d k e hm hd
      have hset : ∀ e, s.isSet e → update s.isSet x.event true e := by
        intro e he
        rw [update_apply]
        split
        · rfl
        · exact he
      rcases h.announced.waiting m d k e hm hd with he | ⟨hget, hp, r, hr, hrk, hnd⟩
      · exact Or.inl (hset e he)
      by_cases hkey : k = x.record
      · left
        obtain ⟨y, hy, -, hyk, rfl⟩ := hp
        obtain rfl := h.announced.creation_unique hy hmem (hyk.trans hkey)
        exact update_self _ _ _
      · right
        refine ⟨(get_erase _ _ _).trans ((if_neg hkey).trans hget), hpending k e hp hkey, r, ?_,
          hrk, hnd⟩
        split
        · exact hr
        · refine List.mem_filter.mpr ⟨hr, ?_⟩
          rw [hrk]
          exact decide_eq_true hkey
  case h_2 => cases hs

theorem Inv.call (h : Inv s) {kind : Kind} (hc : OneName s (.call kind key))
    (hs : step s (.call kind key) = some s') : Inv s' := by
  refine ⟨h.locked.call hs, h.apart.call hc hs, ?_, ?_⟩
  · cases hs
    refine ⟨h.announced.ids, h.announced.records, ?_, ?_, ?_⟩
    · intro k e hk
      rcases h.announced.entry k e hk with hp | ⟨j, d, hj, hd⟩
      · exact Or.inl hp
      · exact Or.inr ⟨j, d, Table.get_append hj, hd⟩
    · intro j d k hj hd
      rcases Table.append_cases hj with hj | ⟨-, rfl⟩
      · exact h.announced.target j d k hj hd
      · cases hd
    · intro j d k e hj hd
      rcases Table.append_cases hj with hj | ⟨-, rfl⟩
      · exact h.announced.waiting j d k e hj hd
      · cases hd
  · cases hs
    intro j hj
    obtain ⟨d, hd, hst⟩ := h.scanned j hj
    exact ⟨d, Table.get_append hd, hst⟩

variable {a : Act}

/-- A step of a call is one of `stepCall`. -/
theorem step_call (ha : a.subject = some i) (hi : s.calls[i]? = some c) :
    step s a = stepCall s i c a := by
  cases a with
  | call kind key => cases ha
  | settleCreation j keep => cases ha
  | _ =>
    cases ha
    simp only [step, Act.subject, hi]

theorem step_subject (ha : a.subject = some i) (hs : step s a = some s') :
    ∃ c : Call, s.calls[i]? = some c ∧ stepCall s i c a = some s' := by
  cases hi : s.calls[i]? with
  | some c => exact ⟨c, rfl, (step_call ha hi).symm.trans hs⟩
  | none =>
    cases a with
    | call kind key => cases ha
    | settleCreation j keep => cases ha
    | _ =>
      cases ha
      simp only [step, Act.subject, hi] at hs
      cases hs

theorem Inv.step (h : Inv s) (hc : OneName s a) (hs : step s a = some s') : Inv s' := by
  cases a with
  | call kind key => exact h.call hc hs
  | settleCreation j keep => exact h.settleCreation hs
  | acquire i =>
    obtain ⟨c, hi, hs⟩ := step_subject rfl hs
    exact h.acquire hi hs
  | enter i =>
    obtain ⟨c, hi, hs⟩ := step_subject rfl hs
    exact h.enter hi hs
  | acquireAlias i =>
    obtain ⟨c, hi, hs⟩ := step_subject rfl hs
    exact h.acquireAlias hi hs
  | scanned i ok =>
    obtain ⟨c, hi, hs⟩ := step_subject rfl hs
    exact h.scanned' hi hs
  | launch i =>
    obtain ⟨c, hi, hs⟩ := step_subject rfl hs
    exact h.launch hi hs
  | settle i =>
    obtain ⟨c, hi, hs⟩ := step_subject rfl hs
    exact h.settle hi hs
  | finish i =>
    obtain ⟨c, hi, hs⟩ := step_subject rfl hs
    exact h.finish hi hs
  | wake i =>
    obtain ⟨c, hi, hs⟩ := step_subject rfl hs
    exact h.wake hi hs
  | remove i ok =>
    obtain ⟨c, hi, hs⟩ := step_subject rfl hs
    exact h.remove hi hs

/-! ## Every call ends -/

/-- What a step of a call does to what is left to do. -/
theorem stepCall_work {t : State} (hs : stepCall s i c a = some t) :
    ∃ st : Stage, t.calls = s.calls.set i { c with stage := st } ∧ t.creations = s.creations ∧
      st.work < c.stage.work := by
  cases a with
  | call kind key => cases hs
  | settleCreation j keep => cases hs
  | acquire _ =>
    obtain ⟨hq, rfl⟩ := guard_some hs
    exact ⟨.locked, rfl, rfl, by rw [hq.1]; decide⟩
  | enter _ =>
    obtain ⟨hq, rfl⟩ := guard_some hs
    rw [hq]
    unfold State.enter
    split
    · refine ⟨_, rfl, rfl, ?_⟩
      unfold State.awaited
      split
      · exact (by decide : 2 < 7)
      · split
        · exact (by decide : 3 < 7)
        · exact (by decide : 2 < 7)
    · split
      · exact ⟨.done, rfl, rfl, by decide⟩
      · exact ⟨_, rfl, rfl, (by decide : 4 < 7)⟩
    · split
      · exact ⟨.done, rfl, rfl, by decide⟩
      · exact ⟨_, rfl, rfl, (by decide : 6 < 7)⟩
  | acquireAlias _ =>
    obtain ⟨hq, rfl⟩ := guard_some hs
    exact ⟨.scanning, rfl, rfl, by rw [hq.1]; decide⟩
  | scanned _ ok =>
    obtain ⟨hq, rfl⟩ := guard_some hs
    rw [hq]
    unfold State.scanned
    split
    · exact ⟨.done, rfl, rfl, by decide⟩
    · split
      · exact ⟨_, rfl, rfl, (by decide : 4 < 5)⟩
      · exact ⟨_, rfl, rfl, (by decide : 4 < 5)⟩
  | launch _ =>
    simp only [stepCall] at hs
    split at hs
    case h_1 record hq =>
      split at hs
      · cases hs
        exact ⟨_, rfl, rfl, by rw [hq]; exact (by decide : 3 < 4)⟩
      · cases hs
    case h_2 => cases hs
  | settle _ =>
    simp only [stepCall] at hs
    split at hs
    case h_1 record event hq =>
      cases hs
      exact ⟨.ending, rfl, rfl, by rw [hq]; exact (by decide : 2 < 3)⟩
    case h_2 => cases hs
  | finish _ =>
    have hfinish : (s.finish i c).calls = s.calls.set i { c with stage := .done } ∧
        (s.finish i c).creations = s.creations := by
      unfold State.finish
      split <;> exact ⟨rfl, rfl⟩
    simp only [stepCall] at hs
    split at hs
    case h_1 hq =>
      cases hs
      exact ⟨.done, hfinish.1, hfinish.2, by rw [hq]; exact (by decide : 0 < 4)⟩
    case h_2 hq =>
      cases hs
      exact ⟨.done, hfinish.1, hfinish.2, by rw [hq]; decide⟩
    case h_3 => cases hs
  | wake _ =>
    simp only [stepCall] at hs
    split at hs
    case h_1 k e hq =>
      split at hs
      · cases hs
        exact ⟨.removing, rfl, rfl, by rw [hq]; exact (by decide : 2 < 3)⟩
      · cases hs
    case h_2 => cases hs
  | remove _ ok =>
    obtain ⟨hq, rfl⟩ := guard_some hs
    exact ⟨.done, rfl, rfl, by rw [hq]; decide⟩

theorem work_call {t : State} (hi : s.calls[i]? = some c) (hs : stepCall s i c a = some t) :
    t.work < s.work := by
  obtain ⟨st, hcalls, hcreations, hlt⟩ := stepCall_work hs
  have hget : (s.calls.map (·.stage.work))[i]? = some c.stage.work := by
    rw [List.getElem?_map, hi]
    rfl
  have hsum := @Table.sum_set i _ _ st.work hget
  unfold State.work
  rw [hcalls, hcreations, List.map_set]
  dsimp only
  omega

/-- What is in progress comes to an end. -/
theorem work_lt {t : State} (ha : a.progress) (hs : step s a = some t) :
    t.work < s.work := by
  cases hsub : a.subject with
  | some i =>
    obtain ⟨c, hi, hs⟩ := step_subject hsub hs
    exact work_call hi hs
  | none =>
    cases a with
    | call kind key => cases ha
    | settleCreation j keep =>
      simp only [SparkDeck.Lifecycle.step] at hs
      split at hs
      case h_1 x hx =>
        obtain ⟨hopen, hs⟩ := Option.ite_none_left_eq_some.mp hs
        cases hs
        obtain ⟨hlt, hget⟩ := List.getElem?_eq_some_iff.mp hx
        have hpos : 0 < s.creations.countP (!·.settled) :=
          List.countP_pos_iff.mpr ⟨x, List.mem_of_getElem? hx, by simpa using hopen⟩
        have hcount := @List.countP_set _ (!·.settled) s.creations j { x with settled := true } hlt
        simp only [hget, Bool.not_eq_true] at hcount hopen
        unfold State.work
        dsimp only [State.complete]
        rw [hcount, hopen]
        simp only [Bool.not_false, Bool.not_true, if_true, Bool.false_eq_true, if_false]
        omega
      case h_2 => cases hs
    | _ => cases hsub

/-- A call inside its lock goes on, or what it waits for does. -/
theorem Inv.live_inside (h : Inv s) (hi : s.calls[i]? = some c) (hin : c.stage.inside) :
    ∃ a t, a.progress ∧ SparkDeck.Lifecycle.step s a = some t := by
  cases hst : c.stage with
  | queued | done =>
    rw [hst] at hin
    cases hin
  | locked => exact ⟨.enter i, _, rfl, (step_call rfl hi).trans (if_pos hst)⟩
  | aliasWait =>
    cases hh : s.aliasHolder with
    | none => exact ⟨.acquireAlias i, _, rfl, (step_call rfl hi).trans (if_pos ⟨hst, hh⟩)⟩
    | some j =>
      obtain ⟨d, hd, hscan⟩ := h.scanned j hh
      exact ⟨.scanned j true, _, rfl, (step_call rfl hd).trans (if_pos hscan)⟩
  | scanning => exact ⟨.scanned i true, _, rfl, (step_call rfl hi).trans (if_pos hst)⟩
  | working record | ending =>
    refine ⟨.finish i, s.finish i c, rfl, (step_call rfl hi).trans ?_⟩
    simp only [stepCall, hst]
  | launching record event =>
    refine ⟨.settle i, (s.complete record event).move i c .ending, rfl,
      (step_call rfl hi).trans ?_⟩
    simp only [stepCall, hst]
  | waiting k e =>
    rcases h.announced.waiting i c k e hi hst with hset | ⟨-, ⟨x, hx, hopen, -, -⟩, -⟩
    · refine ⟨.wake i, s.move i c .removing, rfl, (step_call rfl hi).trans ?_⟩
      simp only [stepCall, hst, hset, if_true]
    · obtain ⟨j, hj⟩ := List.getElem?_of_mem hx
      have hstep : (SparkDeck.Lifecycle.step s (.settleCreation j true)).isSome := by
        simp only [SparkDeck.Lifecycle.step, hj, hopen, Bool.false_eq_true, if_false]
        rfl
      obtain ⟨t, ht⟩ := Option.isSome_iff_exists.mp hstep
      exact ⟨.settleCreation j true, t, rfl, ht⟩
  | removing => exact ⟨.remove i true, _, rfl, (step_call rfl hi).trans (if_pos hst)⟩

theorem Inv.live (h : Inv s) (hidle : ¬s.idle) :
    ∃ a t, a.progress ∧ SparkDeck.Lifecycle.step s a = some t := by
  unfold State.idle at hidle
  simp only [not_forall] at hidle
  obtain ⟨c, hc, hdone⟩ := hidle
  obtain ⟨i, hi⟩ := List.getElem?_of_mem hc
  by_cases hq : c.stage = .queued
  · cases hh : s.holder c.lock with
    | none => exact ⟨.acquire i, _, rfl, (step_call rfl hi).trans (if_pos ⟨hq, hh⟩)⟩
    | some j =>
      obtain ⟨d, hj, hd, -⟩ := h.locked.holds c.lock j hh
      exact h.live_inside hj hd
  · refine h.live_inside hi ?_
    cases hst : c.stage <;> first | rfl | exact absurd hst hq | exact absurd hst hdone

theorem Inv.serial (h : Inv s) : Serialised s where
  exclusive _ _ _ _ _ hi hj hc hd hcr hdr :=
    one_inside h.locked h.apart hi hj hc hd (lookup_some hcr).1 (lookup_some hcr).2
      (lookup_some hdr).2
  woken i c k e hi hst := (h.announced.waiting i c k e hi hst).imp_right And.left
  live := h.live
  ends _ _ ha hs := work_lt ha hs
  retired := h.locked.retired

theorem Init.inv (h : Init s) : Inv s where
  locked := by
    have hnone : ∀ i : ℕ, s.calls[i]? = none := fun i => by rw [h.calls]; rfl
    constructor
    · rw [h.users, h.calls]
      exact counts_empty
    · intro i c hi
      rw [hnone] at hi
      cases hi
    · intro k l hk
      rw [h.locks] at hk
      cases hk
    · intro j k l hj
      rw [h.locks] at hj
      cases hj
    · intro k l hk
      rw [h.locks] at hk
      cases hk
    · intro i c hi
      rw [hnone] at hi
      cases hi
    · intro l i hl
      rw [h.holder] at hl
      cases hl
  apart := by
    intro i j c d r hi
    rw [h.calls] at hi
    cases hi
  announced := by
    refine ⟨h.ids, h.records, fun k e hk => Or.inl (h.launches k e hk), ?_, ?_⟩
    · intro i c k hi
      rw [h.calls] at hi
      cases hi
    · intro i c k e hi
      rw [h.calls] at hi
      cases hi
  scanned := Scanned.free h.aliasHolder

/-- **Serialised**, in every run that addresses a record by one of its names at a time. -/
theorem serialised (h0 : Init s) (h : Reach SparkDeck.Lifecycle.step OneName s s') :
    Serialised s' :=
  (h.invariant h0.inv fun _ _ _ hi hc hs => hi.step hc hs).serial

/-! ## Two runs -/

/-- One record, whose creation is still launching it. -/
def stored : State where
  rows := [⟨"id", "name"⟩]
  creations := [⟨"id", 0, false, false⟩]
  calls := []
  launches := Dict.empty.insert "id" 0
  events := 1
  isSet _ := false
  locks := Dict.empty
  users := Dict.empty
  lockCount := 0
  holder _ := none
  aliasHolder := none

/-- The same, with nothing in flight. -/
def settled : State := { stored with creations := [], launches := Dict.empty }

theorem init_stored : Init stored where
  ids := by decide
  records := by decide
  launches := by
    intro k e hk
    change (Dict.empty.insert "id" 0).get k = some e at hk
    rw [get_insert] at hk
    obtain ⟨he, rfl⟩ := guard_some hk
    exact ⟨_, List.mem_singleton_self _, rfl, he.symm, rfl⟩
  calls := rfl
  locks := rfl
  users := rfl
  holder _ := rfl
  aliasHolder := rfl

/-- A delete waits for the creation, and an action for the delete. -/
def queueing : List Act :=
  [.call .delete "id", .call .start "id", .acquire 0, .enter 0, .settleCreation 0 true, .wake 0]

/-- The record is started by its id, deleted by its alias, and the start is over. -/
def mixing : List Act :=
  [.call .start "id", .call .delete "name", .acquire 0, .enter 0, .acquireAlias 0,
    .scanned 0 true, .acquire 1, .enter 1, .finish 0]

theorem serialised_queueing : ∃ t, Reach SparkDeck.Lifecycle.step OneName stored t ∧
    (t.calls.map Call.stage) = [.removing, .queued] ∧ Serialised t := by
  have hrun : (replay SparkDeck.Lifecycle.step OneName stored queueing).any
      (fun t => decide (t.calls.map Call.stage = [.removing, .queued])) = true := by decide +kernel
  obtain ⟨t, ht, hp⟩ := reach_any hrun
  exact ⟨t, ht, of_decide_eq_true hp, serialised init_stored ht⟩

/-- **A lost wake-up**: the event is out of the table, nobody is going to set it, and the delete
waits for it. -/
theorem lost : ∃ t, Reach SparkDeck.Lifecycle.step Free settled t ∧ ¬Serialised t := by
  have hrun : (replay SparkDeck.Lifecycle.step Free settled mixing).any
      (fun t => decide (t.calls[1]? = some ⟨.delete, "name", 1, .waiting "id" 1⟩) &&
        !t.isSet 1 && decide (t.launches.get "id" = none)) = true := by decide +kernel
  obtain ⟨t, ht, hp⟩ := reach_any hrun
  simp only [Bool.and_eq_true, decide_eq_true_eq, Bool.not_eq_true'] at hp
  obtain ⟨⟨hcall, hset⟩, hget⟩ := hp
  refine ⟨t, ht, fun h => ?_⟩
  rcases h.woken 1 _ "id" 1 hcall rfl with he | he
  · cases hset.symm.trans he
  · cases hget.symm.trans he

end SparkDeck.Lifecycle
