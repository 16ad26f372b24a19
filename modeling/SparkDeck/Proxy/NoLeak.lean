import SparkDeck.Proxy.Request

/-!
# Routing slots and observations do not leak

In every run of `SparkDeck.Proxy.step` whose steps meet `Clean`, every state is `Sound`
(`no_leak`). Without the condition a stream that is closed before its first pull leaves its slot,
its upstream and its observation behind (`leaked`).

What is known of one request (`Good`) is kept by everything it does; `Move` says what an `Op` may
change around it.

* `Good.stream`: the streams. A tower that is over at the top is over all the way down
  (`Nested.step_sealed`), so the observation and the upstream are gone when the slot is.
* `Good.settle`: the `finally` of `proxy`.
-/

namespace SparkDeck.Proxy

open Nested (Mode Status Frame Tower Act Sealed)
open Transition

/-- None of these frames is one of `proxy` itself. -/
def Plain (ks : List Wrapper) : Prop := ∀ k ∈ ks, k ≠ .release ∧ k ≠ .observed

/-- What the tower is made of in each phase. -/
def Request.Shaped (q : Request) : Prop :=
  match q.phase with
  | .selecting => q.slot = none ∧ q.tower = []
  | .calling => q.tower = []
  | .streaming => ∃ rest, q.tower.map (·.kind) = q.wrappers ++ rest ∧ Plain rest
  | .ended => ∀ f ∈ q.tower, f.isOver
  | _ => Plain (q.tower.map (·.kind))

/-- The observation of the request may be active. -/
def Request.Watchable (q : Request) : Prop :=
  match q.phase with
  | .selecting | .ended => False
  | .streaming => ∃ f ∈ q.tower, f.kind = .observed ∧ f.isOver = false
  | _ => True

structure Good (watched : Prop) (q : Request) : Prop where
  isSealed : Sealed q.tower
  shaped : q.Shaped
  releases : q.releases = if q.isOver then q.reserved else 0
  watch : watched → q.Watchable

/-- The counters after a request came to hold what it did not hold, or no longer does. -/
def Counted (d d' : Dict String ℕ) (before after : Option String) : Prop :=
  (after = before ∧ d' = d) ∨
    (∃ k, before = none ∧ after = some k ∧ d' = d.up k) ∨
    ∃ k, before = some k ∧ after = none ∧ d' = d.down k

/-- What one request does to the state. -/
structure Move (s s' : State) (r : ℕ) (q q' : Request) : Prop where
  requests : s'.requests = s.requests.set r q'
  active : ∀ k ∈ s'.active, k ≠ r → k ∈ s.active
  counted : Counted s.counters.inflight s'.counters.inflight q.holds q'.holds
  good : Good (r ∈ s'.active) q'

structure Inv (s : State) : Prop where
  good : ∀ (r : ℕ) (q : Request), s.requests[r]? = some q → Good (r ∈ s.active) q
  active : ∀ r ∈ s.active, r < s.requests.length
  counts : Dict.Counts s.counters.inflight (s.holders : Multiset String)

variable {s s' : State} {r : ℕ} {q q' : Request} {w w' : Prop} {a : Act} {t : Tower Wrapper}

/-! ## Requests -/

theorem Request.isOver_of_phase (h : q.phase ≠ .streaming) (h' : q.phase ≠ .ended) :
    q.isOver = false := by
  simp [Request.isOver, h, h']

theorem Request.isOver_streaming (h : q.phase = .streaming) :
    q.isOver = q.tower.head?.any Frame.isOver := by
  simp [Request.isOver, h]

theorem Request.holds_of_open (h : q.isOver = false) : q.holds = q.slot := by
  simp [Request.holds, h]

theorem Request.holds_of_over (h : q.isOver) : q.holds = none := by
  simp [Request.holds, h]

theorem Request.holds_of_no_slot (h : q.slot = none) : q.holds = none := by
  simp [Request.holds, h]

theorem Request.reserved_of_no_slot (h : q.slot = none) : q.reserved = 0 := by
  simp [Request.reserved, h]

theorem Good.mono (h : Good w q) (hw : w' → w) : Good w' q :=
  { h with watch := fun h' => h.watch (hw h') }

/-- A request that is over has nothing open. -/
theorem Good.closed (h : Good w q) (ho : q.isOver) : ∀ f ∈ q.tower, f.isOver := by
  cases hp : q.phase with
  | ended =>
    have hs := h.shaped
    rw [Request.Shaped, hp] at hs
    exact hs
  | streaming =>
    rw [Request.isOver_streaming hp] at ho
    obtain ⟨f, hf, hfo⟩ := (Option.any_eq_true _ _).mp ho
    obtain ⟨rest, ht⟩ := List.head?_eq_some_iff.mp hf
    have hsealed := h.isSealed
    rw [ht] at hsealed ⊢
    exact hsealed.all_over hfo
  | selecting | calling | dispatched _ | discarding | identifying =>
    rw [Request.isOver_of_phase (by simp [hp]) (by simp [hp])] at ho
    cases ho

/-- Its observation is not active either. -/
theorem Good.unwatched (h : Good w q) (ho : q.isOver) : ¬ w := by
  intro hw
  have hwatch := h.watch hw
  have hclosed := h.closed ho
  unfold Request.Watchable at hwatch
  cases hp : q.phase with
  | ended => simp [hp] at hwatch
  | streaming =>
    simp only [hp] at hwatch
    obtain ⟨f, hf, -, hopen⟩ := hwatch
    rw [hclosed f hf] at hopen
    cases hopen
  | selecting | calling | dispatched _ | discarding | identifying =>
    rw [Request.isOver_of_phase (by simp [hp]) (by simp [hp])] at ho
    cases ho

theorem Inv.sound (h : Inv s) : Sound s where
  counts := h.counts
  released r q hq := (h.good r q hq).releases
  closed r q hq := (h.good r q hq).closed
  ended r q hq := (h.good r q hq).unwatched

/-! ## Moves -/

theorem Counted.counts {l : List Request} (hc : Counted d d' q.holds q'.holds)
    (h : Dict.Counts d ↑(l.filterMap Request.holds)) (hr : l[r]? = some q) :
    Dict.Counts d' ↑((l.set r q').filterMap Request.holds) := by
  rcases hc with ⟨hq, rfl⟩ | ⟨k, hq, hq', rfl⟩ | ⟨k, hq, hq', rfl⟩
  · rw [Dict.filterMap_set_of_eq hr hq]
    exact h
  · exact h.set_acquire hr hq hq'
  · exact h.set_release hr hq hq'

theorem Move.inv (m : Move s s' r q q') (h : Inv s) (hr : s.requests[r]? = some q) : Inv s' where
  good k p hp := by
    rw [m.requests, List.getElem?_set] at hp
    by_cases hk : r = k
    · subst hk
      rw [if_pos rfl] at hp
      obtain ⟨_, rfl⟩ := guard_some hp
      exact m.good
    · rw [if_neg hk] at hp
      exact (h.good k p hp).mono fun hact => m.active k hact fun he => hk he.symm
  active k hk := by
    rw [m.requests, List.length_set]
    by_cases hkr : k = r
    · subst hkr
      exact (List.getElem?_eq_some_iff.mp hr).1
    · exact h.active k (m.active k hk hkr)
  counts := by
    have := m.counted.counts h.counts hr
    rwa [← m.requests] at this

/-! ## The `finally` of `proxy` -/

theorem releaseSlot_requests (s : State) (slot : Option String) :
    (s.releaseSlot slot).requests = s.requests ∧ (s.releaseSlot slot).active = s.active := by
  cases slot <;> exact ⟨rfl, rfl⟩

/-- Releasing what a request has. -/
theorem counted_release (s : State) (hq : q.holds = q.slot) (hq' : q'.holds = none) :
    Counted s.counters.inflight (s.releaseSlot q.slot).counters.inflight q.holds q'.holds := by
  rw [hq, hq']
  cases q.slot with
  | none => exact Or.inl ⟨rfl, rfl⟩
  | some id => exact Or.inr (Or.inr ⟨id, rfl, rfl, rfl⟩)

theorem Good.settle (h : Good (r ∈ s.active) q) (hopen : q.isOver = false)
    (hclosed : ∀ f ∈ q.tower, f.isOver) :
    Move s (s.settle r q) r q
      { q with phase := .ended, releases := q.releases + q.reserved } := by
  have hfields := releaseSlot_requests (s.communityObservationEnd r) q.slot
  constructor
  case requests => exact congrArg (fun l => List.set l r _) hfields.1
  case active =>
    intro k hk _
    have hk : k ∈ (s.communityObservationEnd r).active := hfields.2 ▸ hk
    exact Finset.mem_of_mem_erase hk
  case counted =>
    exact counted_release (s.communityObservationEnd r) (Request.holds_of_open hopen)
      (Request.holds_of_over (by simp [Request.isOver]))
  case good =>
    refine ⟨h.isSealed, hclosed, ?_, fun hr => ?_⟩
    · have h0 := h.releases
      rw [hopen] at h0
      simp only [Request.isOver, Request.reserved] at h0 ⊢
      simp [h0]
    · have hr : r ∈ (s.communityObservationEnd r).active := hfields.2 ▸ hr
      exact absurd rfl (Finset.ne_of_mem_erase hr)

/-! ## Streams -/

variable {k : Wrapper}

theorem unwinds_iff :
    q.unwinds k a ↔ ∃ i f, a = .finish i ∧ q.tower[i]? = some f ∧ f.kind = k := by
  cases a with
  | finish i => simp [Request.unwinds, Option.any_eq_true]
  | start i | leave i | close i | cut i => simp [Request.unwinds]

variable {rest : List Wrapper} {f : Frame Wrapper}

/-- The frame that releases the slot is the outermost one, and it is there only for a slot. -/
theorem release_index (hk : q.tower.map (·.kind) = q.wrappers ++ rest) (hp : Plain rest) {i : ℕ}
    (hf : q.tower[i]? = some f) (hr : f.kind = .release) : i = 0 ∧ q.slot.isSome := by
  have hi : (q.wrappers ++ rest)[i]? = some .release := by
    rw [← hk, List.getElem?_map, hf, Option.map_some, hr]
  have hrest : ∀ j : ℕ, (Wrapper.observed :: rest)[j]? ≠ some .release := by
    intro j hj
    rcases List.mem_cons.mp (List.mem_of_getElem? hj) with he | hm
    · cases he
    · exact (hp _ hm).1 rfl
  unfold Request.wrappers at hi
  cases hs : q.slot with
  | none =>
    rw [hs] at hi
    exact absurd hi (hrest i)
  | some id =>
    rw [hs] at hi
    cases i with
    | zero => exact ⟨rfl, rfl⟩
    | succ i => exact absurd hi (hrest i)

/-- With a slot the outermost frame releases it. -/
theorem head_release (hk : q.tower.map (·.kind) = q.wrappers ++ rest) (hs : q.slot.isSome) :
    ∃ f, q.tower[0]? = some f ∧ f.kind = .release := by
  have h0 : (q.tower.map (·.kind))[0]? = some .release := by
    rw [hk, Request.wrappers, if_pos hs]
    rfl
  rw [List.getElem?_map] at h0
  exact Option.map_eq_some_iff.mp h0

/-- A frame of `proxy` that has something to do ends by its `finally`. -/
theorem unwinds_of_over (hf : q.tower[a.index]? = some f)
    (hst : Nested.next Wrapper.mode q.tower f a = some .over) (hh : Harmless s r q a)
    (hk : f.kind = k) (hdue : k = .release ∨ k = .observed ∧ r ∈ s.active) :
    q.unwinds k a := by
  rcases Nested.next_over hst with ⟨ha, -⟩ | hab
  · exact unwinds_iff.mpr ⟨a.index, f, ha, hf, hk⟩
  · have hno := hh.2
    rw [hf, Option.all_some, hab] at hno
    subst hk
    rcases hdue with h | ⟨h, hact⟩ <;> simp_all

theorem head?_set {i : ℕ} (hi : i ≠ 0) : (t.set i f).head? = t.head? := by
  cases i with
  | zero => exact absurd rfl hi
  | succ i => cases t <;> rfl

/-- The outermost frame of a stream with a slot ends only by releasing it. -/
theorem isOver_stream (hph : q.phase = .streaming) (hk : q.tower.map (·.kind) = q.wrappers ++ rest)
    (hslot : q.slot.isSome) (hh : Harmless s r q a)
    (ht : Nested.step Wrapper.mode q.tower a = some t) (hu : q.unwinds .release a = false) :
    t.head?.any Frame.isOver = q.isOver := by
  rw [Request.isOver_streaming hph]
  obtain ⟨f, st, hf, hst, rfl⟩ := Nested.step_cases ht
  by_cases hi : a.index = 0
  · obtain ⟨g, hg, hkind⟩ := head_release hk hslot
    obtain rfl := Option.some.inj (hg.symm.trans (hi ▸ hf))
    have hne : st ≠ .over := by
      rintro rfl
      have := unwinds_of_over hf hst hh hkind (Or.inl rfl)
      rw [hu] at this
      cases this
    have hg0 : g.status ≠ .over := Nested.next_ne_over hst
    obtain ⟨tl, htl⟩ : ∃ tl, q.tower = g :: tl :=
      List.head?_eq_some_iff.mp (by rw [List.head?_eq_getElem?, hg])
    rw [hi, htl]
    simp [Frame.isOver, hne, hg0]
  · rw [head?_set hi]

/-- A stream act happens to a request whose frames are not all over. -/
theorem stream_phase (h : q.Shaped) (ht : Nested.step Wrapper.mode q.tower a = some t) :
    q.phase = .streaming ∨
      (q.phase ≠ .streaming ∧ q.phase ≠ .ended ∧ Plain (q.tower.map (·.kind))) := by
  obtain ⟨f, st, hf, hst, -⟩ := Nested.step_cases ht
  have hmem : f ∈ q.tower := List.mem_of_getElem? hf
  unfold Request.Shaped at h
  cases hp : q.phase with
  | streaming => exact Or.inl rfl
  | selecting =>
    rw [hp] at h
    rw [h.2] at hmem
    exact absurd hmem List.not_mem_nil
  | calling =>
    simp only [hp] at h
    rw [h] at hmem
    exact absurd hmem List.not_mem_nil
  | ended =>
    simp only [hp] at h
    exact absurd (by simpa [Frame.isOver] using h f hmem) (Nested.next_ne_over hst)
  | dispatched _ | discarding | identifying =>
    simp only [hp] at h
    exact Or.inr ⟨by simp, by simp, h⟩

theorem Plain.not_unwinds (h : Plain (q.tower.map (·.kind))) :
    q.unwinds .release a = false ∧ q.unwinds .observed a = false := by
  have key : ∀ k, (k = .release ∨ k = .observed) → q.unwinds k a = false := by
    intro k hk
    by_contra hu
    obtain ⟨i, f, -, hf, hfk⟩ := unwinds_iff.mp (Bool.eq_true_of_not_eq_false hu)
    have := h f.kind (List.mem_map_of_mem (List.mem_of_getElem? hf))
    rcases hk with rfl | rfl
    · exact this.1 hfk
    · exact this.2 hfk
  exact ⟨key _ (Or.inl rfl), key _ (Or.inr rfl)⟩

/-- What an act of the streams does to the rest of the state. -/
theorem unwind_spec (s : State) (r : ℕ) (q : Request) (a : Act) :
    (s.unwind r q a).requests = s.requests ∧
      (∀ k ∈ (s.unwind r q a).active, k ∈ s.active) ∧
      (q.unwinds .observed a → r ∉ (s.unwind r q a).active) ∧
      (s.unwind r q a).counters.inflight =
        if q.unwinds .release a then (s.releaseSlot q.slot).counters.inflight
        else s.counters.inflight := by
  unfold State.unwind
  have hrel := fun s => releaseSlot_requests s q.slot
  by_cases he : (q.unwinds .observed a || q.produced a)
  · rw [if_pos he]
    have hmem : ∀ k ∈ (s.communityObservationEnd r).active, k ∈ s.active := fun k =>
      Finset.mem_of_mem_erase
    have hnot : r ∉ (s.communityObservationEnd r).active := Finset.notMem_erase r _
    by_cases hr : q.unwinds .release a
    · rw [if_pos hr, if_pos hr, (hrel _).2]
      refine ⟨(hrel _).1, hmem, fun _ => hnot, ?_⟩
      cases q.slot <;> rfl
    · rw [if_neg hr, if_neg hr]
      exact ⟨rfl, hmem, fun _ => hnot, rfl⟩
  · rw [if_neg he]
    have hobs : q.unwinds .observed a ≠ true := fun h => he (by rw [h, Bool.true_or])
    by_cases hr : q.unwinds .release a
    · rw [if_pos hr, if_pos hr, (hrel _).2]
      exact ⟨(hrel _).1, fun _ h => h, fun h => absurd h hobs, rfl⟩
    · rw [if_neg hr, if_neg hr]
      exact ⟨rfl, fun _ h => h, fun h => absurd h hobs, rfl⟩

/-- The observed frame of a stream ends only by ending the observation. -/
theorem watchable_stream (h : q.Watchable) (hact : r ∈ s.active) (hq : q'.phase = q.phase)
    (ht : Nested.step Wrapper.mode q.tower a = some q'.tower) (hh : Harmless s r q a)
    (hu : q.unwinds .observed a = false) : q'.Watchable := by
  unfold Request.Watchable at h ⊢
  rw [hq]
  cases hp : q.phase with
  | streaming =>
    simp only [hp] at h ⊢
    obtain ⟨g, hg, hkind, hopen⟩ := h
    obtain ⟨f, st, hf, hst, heq⟩ := Nested.step_cases ht
    obtain ⟨k, hk⟩ := List.mem_iff_getElem?.mp hg
    have hlt := (List.getElem?_eq_some_iff.mp hf).1
    by_cases hi : a.index = k
    · subst hi
      obtain rfl := Option.some.inj (hf.symm.trans hk)
      refine ⟨{ f with status := st }, ?_, hkind, ?_⟩
      · rw [heq]
        exact List.mem_of_getElem? (List.getElem?_set_self hlt)
      · by_contra ho
        have hov : st = .over := by simpa [Frame.isOver] using ho
        subst hov
        have := unwinds_of_over hf hst hh hkind (Or.inr ⟨rfl, hact⟩)
        rw [hu] at this
        cases this
    · refine ⟨g, ?_, hkind, hopen⟩
      rw [heq]
      exact List.mem_of_getElem? ((List.getElem?_set_ne hi).trans hk)
  | selecting | ended =>
    simp only [hp] at h
  | calling | dispatched _ | discarding | identifying => trivial

theorem shaped_stream (h : q.Shaped) (ht : Nested.step Wrapper.mode q.tower a = some t) :
    (q.after t a).Shaped := by
  have hkinds := Nested.step_kinds ht
  have hphase : (q.after t a).phase = q.phase := rfl
  have htower : (q.after t a).tower = t := rfl
  rcases stream_phase h ht with hp | ⟨hns, hne, hplain⟩
  · unfold Request.Shaped at h ⊢
    rw [hphase, htower]
    simp only [hp] at h ⊢
    obtain ⟨rest, hk, hrest⟩ := h
    exact ⟨rest, hkinds.trans hk, hrest⟩
  · rw [← hkinds] at hplain
    unfold Request.Shaped at h ⊢
    rw [hphase, htower]
    cases hp : q.phase with
    | streaming => exact absurd hp hns
    | ended => exact absurd hp hne
    | selecting | calling =>
      -- without frames nothing can happen to one
      simp only [hp] at h
      obtain ⟨f, st, hf, -, -⟩ := Nested.step_cases ht
      simp [h] at hf
    | dispatched _ | discarding | identifying => exact hplain

/-- What an act of the streams does to the slot: it is released with the end of the outermost frame,
or what the request has stays. -/
theorem slot_stream (h : q.Shaped) (hh : Harmless s r q a)
    (ht : Nested.step Wrapper.mode q.tower a = some t) :
    (q.unwinds .release a = true ∧ q.isOver = false ∧ (q.after t a).isOver = true ∧
        q.slot.isSome) ∨
      (q.unwinds .release a = false ∧ ((q.after t a).isOver = q.isOver ∨ q.slot = none)) := by
  rcases stream_phase h ht with hp | ⟨hns, hne, hplain⟩
  · have hp' : (q.after t a).phase = .streaming := hp
    simp only [Request.Shaped, hp] at h
    obtain ⟨rest, hk, hrest⟩ := h
    rw [Request.isOver_streaming hp']
    cases hu : q.unwinds .release a with
    | true =>
      obtain ⟨i, f, rfl, hf, hkind⟩ := unwinds_iff.mp hu
      obtain ⟨rfl, hslot⟩ := release_index hk hrest hf hkind
      obtain ⟨g, st, hg, hst, rfl⟩ := Nested.step_cases ht
      cases hf.symm.trans hg
      have hopen : f.status ≠ .over := Nested.next_ne_over hst
      have hov : st = .over := by
        simp only [Nested.next] at hst
        split at hst
        case isTrue => exact (Option.some.inj hst).symm
        case isFalse => cases hst
      obtain ⟨tl, htl⟩ : ∃ tl, q.tower = f :: tl :=
        List.head?_eq_some_iff.mp (by rw [List.head?_eq_getElem?, hf])
      refine Or.inl ⟨rfl, ?_, ?_, hslot⟩
      · rw [Request.isOver_streaming hp, htl]
        simp [Frame.isOver, hopen]
      · simp [Request.after, htl, Nested.Act.index, Frame.isOver, hov]
    | false =>
      refine Or.inr ⟨rfl, ?_⟩
      cases hslot : q.slot with
      | none => exact Or.inr rfl
      | some id =>
        exact Or.inl (isOver_stream hp hk (by rw [hslot]; rfl) hh ht hu)
  · refine Or.inr ⟨hplain.not_unwinds.1, Or.inl ?_⟩
    rw [Request.isOver_of_phase hns hne]
    exact Request.isOver_of_phase hns hne

/-- A step of the streams of one request. -/
theorem Good.stream (h : Good (r ∈ s.active) q) (hh : Harmless s r q a)
    (ht : Nested.step Wrapper.mode q.tower a = some t) :
    Move s ((s.unwind r q a).set r (q.after t a)) r q (q.after t a) := by
  obtain ⟨hreq, hact, hend, hinf⟩ := unwind_spec s r q a
  have hslot := slot_stream h.shaped hh ht
  have hreserved : (q.after t a).reserved = q.reserved := rfl
  have hsame : (q.after t a).slot = q.slot := rfl
  constructor
  case requests => exact congrArg (fun l => List.set l r _) hreq
  case active => exact fun k hk _ => hact k hk
  case counted =>
    show Counted _ (s.unwind r q a).counters.inflight _ _
    rw [hinf]
    rcases hslot with ⟨hu, ho, ho', -⟩ | ⟨hu, hcase⟩
    · rw [if_pos hu]
      exact counted_release s (Request.holds_of_open ho) (Request.holds_of_over ho')
    · rw [hu, if_neg Bool.false_ne_true]
      refine Or.inl ⟨?_, rfl⟩
      rcases hcase with he | hnone
      · simp only [Request.holds, he, hsame]
      · rw [Request.holds_of_no_slot hnone, Request.holds_of_no_slot (hsame.trans hnone)]
  case good =>
    refine ⟨Nested.step_sealed h.isSealed hh.1 ht, shaped_stream h.shaped ht, ?_, fun hr => ?_⟩
    · have h0 := h.releases
      show q.releases + _ = _
      rw [h0, hreserved]
      rcases hslot with ⟨hu, ho, ho', hs⟩ | ⟨hu, hcase⟩
      · rw [hu, ho, ho']
        simp [Request.reserved, hs]
      · rw [hu]
        rcases hcase with he | hnone
        · simp [he]
        · simp [Request.reserved_of_no_slot hnone]
    · have hr' : r ∈ s.active := hact r hr
      refine watchable_stream (h.watch hr') hr' rfl ht hh ?_
      by_contra hu
      exact hend (Bool.eq_true_of_not_eq_false hu) hr

/-! ## What a request does -/

/-- A request that goes on without touching the counters. -/
theorem Move.quiet (hact : ∀ k ∈ s'.active, k ≠ r → k ∈ s.active)
    (hreq : s'.requests = s.requests.set r q') (hinf : s'.counters.inflight = s.counters.inflight)
    (hh : q'.holds = q.holds) (hg : Good (r ∈ s'.active) q') : Move s s' r q q' :=
  ⟨hreq, hact, Or.inl ⟨hh, hinf⟩, hg⟩

/-- `proxy` returns the stream. -/
theorem Good.returned (h : Good w q) (hopen : q.isOver = false) (ht : Sealed t)
    (hp : Plain (t.map (·.kind))) : Good w (q.stream t) ∧ (q.stream t).isOver = false := by
  have hover : (q.stream t).isOver = false := by
    rw [Request.isOver_streaming rfl]
    unfold Request.stream Request.wrappers
    cases q.slot <;> rfl
  refine ⟨⟨?_, ?_, ?_, fun _ => ?_⟩, hover⟩
  · show Sealed (q.wrappers.map fresh ++ t)
    unfold Request.wrappers
    cases q.slot with
    | none => exact ht.cons rfl
    | some id => exact (ht.cons rfl).cons rfl
  · refine ⟨t.map (·.kind), ?_, hp⟩
    show (q.wrappers.map fresh ++ t).map (·.kind) = q.wrappers ++ t.map (·.kind)
    rw [List.map_append, List.map_map]
    exact congrArg (· ++ _) (List.map_id q.wrappers)
  · have h0 := h.releases
    rw [hopen] at h0
    rw [hover]
    exact h0
  · refine ⟨fresh .observed, ?_, rfl, rfl⟩
    exact List.mem_append_left _ (List.mem_map_of_mem (by simp [Request.wrappers]))

theorem plain_result (p : Path) : Plain (p.result.map (·.kind)) ∧ Sealed p.result := by
  cases p <;>
    exact ⟨by simp [Plain, Path.result, fresh],
      Nested.sealed_of_open (by simp [Path.result, fresh, Frame.isOver])⟩

theorem Plain.cons {ks : List Wrapper} (h : Plain ks) (hr : k ≠ .release) (ho : k ≠ .observed) :
    Plain (k :: ks) :=
  List.forall_mem_cons.mpr ⟨⟨hr, ho⟩, h⟩

/-- An upstream that is pulled belongs to a request whose observation has not ended. -/
theorem Good.watchable_of_pulling (h : Good w q) (hp : q.pulling) : q.Watchable := by
  obtain ⟨source, reader, rest, hrev, hlive⟩ : ∃ source reader rest,
      q.tower.reverse = source :: reader :: rest ∧ source.status = .live := by
    unfold Request.pulling at hp
    split at hp
    case h_1 source reader rest hrev =>
      simp only [Bool.and_eq_true, decide_eq_true_eq] at hp
      exact ⟨source, reader, rest, hrev, hp.1⟩
    case h_2 => cases hp
  have hlast : q.tower.getLast? = some source := by
    rw [← List.head?_reverse, hrev]
    rfl
  have hopen : ∀ f ∈ q.tower, f.isOver = false := by
    intro f hf
    by_contra ho
    have := h.isSealed.last_over hf (Bool.eq_true_of_not_eq_false ho) hlast
    simp [Frame.isOver, hlive] at this
  have hmem : source ∈ q.tower := List.mem_of_getLast? hlast
  have hsh := h.shaped
  unfold Request.Shaped at hsh
  unfold Request.Watchable
  cases hph : q.phase with
  | streaming =>
    simp only [hph] at hsh
    obtain ⟨rest', hk, -⟩ := hsh
    have hobs : Wrapper.observed ∈ q.tower.map (·.kind) := by
      rw [hk]
      exact List.mem_append_left _ (by simp [Request.wrappers])
    obtain ⟨f, hf, hfk⟩ := List.mem_map.mp hobs
    exact ⟨f, hf, hfk, hopen f hf⟩
  | selecting =>
    simp only [hph] at hsh
    rw [hsh.2] at hmem
    exact absurd hmem List.not_mem_nil
  | ended =>
    simp only [hph] at hsh
    have := hsh source hmem
    rw [hopen source hmem] at this
    cases this
  | calling | dispatched _ | discarding | identifying => trivial

/-- The observation of a request is activated. -/
theorem Good.activate (h : Good (r ∈ s.active) q) (hr : s.requests[r]? = some q)
    (hw : q.Watchable) (scopes : Finset String) :
    Move s (s.communityObservationActivate r scopes) r q q := by
  refine Move.quiet (fun k hk hne => ?_) ?_ rfl rfl { h with watch := fun _ => hw }
  · exact (Finset.mem_insert.mp hk).resolve_left hne
  · obtain ⟨hlt, hget⟩ := List.getElem?_eq_some_iff.mp hr
    show s.requests = s.requests.set r q
    rw [← hget, List.set_getElem_self]

/-- The selection, when nothing raises before the `try` or there is nothing to release. -/
theorem Good.route (h : Good (r ∈ s.active) q) (hp : q.phase = .selecting) (model : String)
    (lookup : Lookup) (scopes : Finset String) (raised : Bool)
    (hc : raised → lookup.isEmpty)
    (hs : apply s r q (.route model lookup scopes raised) = some s') :
    ∃ q', Move s s' r q q' := by
  have hsh := h.shaped
  simp only [Request.Shaped, hp] at hsh
  have hopen : q.isOver = false := Request.isOver_of_phase (by simp [hp]) (by simp [hp])
  have hrel : q.releases = 0 := by
    have h0 := h.releases
    rwa [hopen] at h0
  have hout : r ∉ s.active := by
    intro hact
    have hw := h.watch hact
    simp [Request.Watchable, hp] at hw
  cases hs
  refine ⟨_, rfl, fun k hk _ => hk, ?_, ⟨?_, ?_, ?_, fun hact => absurd hact hout⟩⟩
  · -- one more request counts for the slot, which the request has from now on
    rw [Request.holds_of_no_slot hsh.1]
    cases hr : raised with
    | true =>
      obtain ⟨hnone, hcount⟩ := select_empty s.counters model (hc hr)
      rw [hcount]
      exact Or.inl ⟨Request.holds_of_over rfl, rfl⟩
    | false =>
      rcases select_spec s.counters model lookup with ⟨hnone, hinf⟩ | ⟨id, hid, hinf⟩
      · exact Or.inl ⟨Request.holds_of_no_slot hnone, hinf⟩
      · exact Or.inr (Or.inl ⟨id, rfl, (Request.holds_of_open rfl).trans hid, hinf⟩)
  · rw [hsh.2]
    exact Nested.sealed_nil
  · cases raised with
    | true => exact fun f hf => absurd (hsh.2 ▸ hf) List.not_mem_nil
    | false => exact hsh.2
  · rw [hrel]
    cases hr : raised with
    | true =>
      obtain ⟨hnone, -⟩ := select_empty s.counters model (hc hr)
      simp [Request.reserved, hnone]
    | false => rfl

/-- A request that changes its phase, with the streams it then has. -/
theorem Good.enter (h : Good (r ∈ s.active) q) (hopen : q.isOver = false) (hw : q.Watchable)
    (hq : q'.isOver = false) (hslot : q'.slot = q.slot) (hrel : q'.releases = q.releases)
    (ht : Sealed q'.tower) (hsh : q'.Shaped) (hw' : q.Watchable → q'.Watchable) :
    Move s (s.set r q') r q q' := by
  refine Move.quiet (fun k hk _ => hk) rfl rfl ?_ ⟨ht, hsh, ?_, fun _ => hw' hw⟩
  · rw [Request.holds_of_open hopen, Request.holds_of_open hq, hslot]
  · have h0 := h.releases
    rw [hopen] at h0
    rw [hq, hrel]
    exact h0

/-- `proxy` returns the stream `t`. -/
theorem Good.stream_returned (h : Good (r ∈ s.active) q) (hopen : q.isOver = false)
    (ht : Sealed t) (hp : Plain (t.map (·.kind))) :
    Move s (s.set r (q.stream t)) r q (q.stream t) := by
  obtain ⟨hgood, hover⟩ := h.returned hopen ht hp
  refine Move.quiet (fun k hk _ => hk) rfl rfl ?_ hgood
  rw [Request.holds_of_open hopen, Request.holds_of_open hover]
  rfl

/-- **What a request does.** -/
theorem Good.apply (h : Good (r ∈ s.active) q) (hr : s.requests[r]? = some q) {op : Op}
    (hready : ready q op) (hc : CleanOp s r q op) (hs : apply s r q op = some s') :
    ∃ q', Move s s' r q q' := by
  have hsh := h.shaped
  unfold Request.Shaped at hsh
  cases op with
  | refuse =>
    have hp : q.phase = .selecting := of_decide_eq_true hready
    simp only [hp] at hsh
    cases hs
    have hopen : q.isOver = false := Request.isOver_of_phase (by simp [hp]) (by simp [hp])
    refine ⟨{ q with phase := .ended }, Move.quiet (fun k hk _ => hk) rfl rfl ?_ ⟨h.isSealed, ?_,
      ?_, fun hact => ?_⟩⟩
    · rw [Request.holds_of_no_slot hsh.1, Request.holds_of_over rfl]
    · exact fun f hf => absurd (hsh.2 ▸ hf) List.not_mem_nil
    · have h0 := h.releases
      rw [hopen] at h0
      rw [h0]
      simp [Request.reserved, hsh.1]
    · have hw := h.watch hact
      simp [Request.Watchable, hp] at hw
  | route model lookup scopes raised =>
    exact h.route (of_decide_eq_true hready) model lookup scopes raised hc hs
  | activate scopes =>
    cases hs
    refine ⟨q, h.activate hr ?_ scopes⟩
    rcases Bool.or_eq_true_iff.mp hready with hp | hp
    · have hp : q.phase = .calling := of_decide_eq_true hp
      simp [Request.Watchable, hp]
    · exact h.watchable_of_pulling hp
  | settle =>
    have hp : q.phase = .calling := of_decide_eq_true hready
    simp only [hp] at hsh
    cases hs
    have hopen : q.isOver = false := Request.isOver_of_phase (by simp [hp]) (by simp [hp])
    exact ⟨_, h.settle hopen fun f hf => absurd (hsh ▸ hf) List.not_mem_nil⟩
  | hand p =>
    have hp : q.phase = .calling := of_decide_eq_true (Bool.and_eq_true_iff.mp hready).1
    have hopen : q.isOver = false := Request.isOver_of_phase (by simp [hp]) (by simp [hp])
    obtain ⟨hplain, hseal⟩ := plain_result p
    cases p with
    | managed =>
      cases hs
      exact ⟨_, h.stream_returned hopen hseal hplain⟩
    | gated | endpoint | legacy =>
      cases hs
      refine ⟨_, h.enter hopen ?_ ?_ rfl rfl hseal hplain fun _ => trivial⟩
      · simp [Request.Watchable, hp]
      · exact Request.isOver_of_phase (by simp) (by simp)
  | handOff =>
    obtain ⟨p, hp⟩ : ∃ p, q.phase = .dispatched p := by
      simp only [ready] at hready
      split at hready
      case h_1 p hp => exact ⟨p, hp⟩
      case h_2 => cases hready
    simp only [hp] at hsh
    have hopen : q.isOver = false := Request.isOver_of_phase (by simp [hp]) (by simp [hp])
    have hseal : Sealed (fresh .prompt :: q.tower) := h.isSealed.cons rfl
    have hplain : Plain ((fresh .prompt :: q.tower).map (·.kind)) :=
      hsh.cons (by simp [fresh]) (by simp [fresh])
    cases p with
    | legacy =>
      simp only [Proxy.apply, hp] at hs
      cases hs
      refine ⟨_, h.enter hopen ?_ ?_ rfl rfl hseal hplain fun _ => trivial⟩
      · simp [Request.Watchable, hp]
      · exact Request.isOver_of_phase (by simp) (by simp)
    | managed | gated | endpoint =>
      simp only [Proxy.apply, hp] at hs
      cases hs
      exact ⟨_, h.stream_returned hopen hseal hplain⟩
  | abandon =>
    obtain ⟨p, hp⟩ : ∃ p, q.phase = .dispatched p := by
      simp only [ready] at hready
      split at hready
      case h_1 p hp => exact ⟨p, hp⟩
      case h_2 => cases hready
    simp only [hp] at hsh
    cases hs
    have hopen : q.isOver = false := Request.isOver_of_phase (by simp [hp]) (by simp [hp])
    refine ⟨_, h.enter hopen ?_ ?_ rfl rfl h.isSealed hsh fun _ => trivial⟩
    · simp [Request.Watchable, hp]
    · exact Request.isOver_of_phase (by simp) (by simp)
  | discarded =>
    obtain ⟨hp, hhead⟩ := Bool.and_eq_true_iff.mp hready
    have hp : q.phase = .discarding := of_decide_eq_true hp
    cases hs
    have hopen : q.isOver = false := Request.isOver_of_phase (by simp [hp]) (by simp [hp])
    refine ⟨_, h.settle hopen ?_⟩
    have hseal := h.isSealed
    cases htower : q.tower with
    | nil => exact fun f hf => absurd hf List.not_mem_nil
    | cons g tl =>
      rw [htower] at hhead hseal
      exact hseal.all_over hhead
  | identify ok =>
    have hp : q.phase = .identifying := of_decide_eq_true hready
    simp only [hp] at hsh
    have hopen : q.isOver = false := Request.isOver_of_phase (by simp [hp]) (by simp [hp])
    cases ok with
    | true =>
      cases hs
      exact ⟨_, h.stream_returned hopen (h.isSealed.cons rfl)
        (hsh.cons (by simp [fresh]) (by simp [fresh]))⟩
    | false =>
      cases hs
      exact ⟨_, h.settle hopen (hc rfl)⟩
  | stream a =>
    obtain ⟨t, ht, rfl⟩ := Option.map_eq_some_iff.mp hs
    exact ⟨_, h.stream hc ht⟩

/-! ## Runs -/

theorem inv_init : Inv State.init where
  good r q hq := by cases hq
  active r hr := absurd hr (Finset.notMem_empty r)
  counts := Dict.counts_empty

/-- **The step lemma.** -/
theorem step_inv (h : Inv s) {e : Label} (hc : Clean s e) (hs : step s e = some s') : Inv s' := by
  cases e with
  | policies p =>
    cases hs
    exact ⟨h.good, h.active, h.counts⟩
  | arrive =>
    cases hs
    constructor
    case good =>
      intro r q hq
      rw [List.getElem?_append] at hq
      split at hq
      case isTrue => exact h.good r q hq
      case isFalse hlt =>
        obtain rfl : q = Request.new := List.mem_singleton.mp (List.mem_of_getElem? hq)
        refine ⟨Nested.sealed_nil, ⟨rfl, rfl⟩, rfl, fun hact => absurd (h.active r hact) hlt⟩
    case active =>
      intro r hr
      rw [List.length_append]
      exact Nat.lt_add_right _ (h.active r hr)
    case counts =>
      have : State.holders { s with requests := s.requests ++ [.new] } = s.holders := by
        unfold State.holders
        rw [List.filterMap_append]
        exact List.append_nil _
      rw [this]
      exact h.counts
  | request r op =>
    obtain ⟨q, hq, hs⟩ := Option.bind_eq_some_iff.mp hs
    obtain ⟨hready, hs⟩ := Option.ite_none_right_eq_some.mp hs
    obtain ⟨q', hm⟩ := (h.good r q hq).apply hq hready (hc q hq) hs
    exact hm.inv h hq

/-- **Nothing leaks** in a run whose steps are all clean. -/
theorem no_leak (h : Reach step Clean State.init s) : Sound s :=
  (h.invariant inv_init fun _ _ _ hi hc hs => step_inv hi hc hs).sound

/-- Two requests for `shared`, which a policy sends to `a` and then to `b`. The stream of the first
is pulled once and closed; the second waits for its deployment. -/
def sharedRun : List Label :=
  let owners : Lookup := ⟨none, none, [⟨"a", none⟩, ⟨"b", none⟩], none, []⟩
  ([.policies fun m => if m = "shared" then some [⟨"a", some 1⟩, ⟨"b", none⟩] else none,
    .arrive, .arrive] : List Label) ++
  (List.map (.request 0) [.route "shared" owners {"node:a"} false, .activate {"node:a"},
    .hand .gated, .handOff] : List Label) ++
  ([.request 1 (.route "shared" owners {"node:b"} false)] : List Label) ++
  (List.map (fun a => .request 0 (.stream a)) [.start 2, .start 3, .start 3, .start 0, .start 1,
    .close 0, .close 1, .close 2, .close 3, .close 4, .finish 4, .finish 3, .finish 2, .finish 1,
    .finish 0] : List Label)

theorem no_leak_shared :
    ∃ s, Reach step Clean State.init s ∧ s.counters.inflight.get "a" = none ∧
      s.counters.inflight.get "b" = some 1 ∧ s.requests.map Request.isOver = [true, false] ∧
      Sound s := by
  have hrun : (replay step Clean State.init sharedRun).any (fun s =>
      decide (s.counters.inflight.get "a" = none ∧ s.counters.inflight.get "b" = some 1 ∧
        s.requests.map Request.isOver = [true, false])) = true := by decide +kernel
  obtain ⟨s, hr, hs⟩ := reach_any hrun
  obtain ⟨ha, hb, ho⟩ := of_decide_eq_true hs
  exact ⟨s, hr, ha, hb, ho, no_leak hr⟩

/-! ## Without the condition -/

/-- A stream that is closed before its first pull. -/
def unpulledRun : List Label :=
  .arrive ::
    ([.route "m" ⟨none, some ⟨"d", none⟩, [], none, []⟩ {"node:a"} false, .activate {"node:a"},
      .hand .managed, .stream (.close 0)].map (.request 0))

/-- The request is over, and its slot is counted, its upstream open and its observation active. -/
theorem leaked :
    ∃ s, Reach step Free State.init s ∧ s.holders = [] ∧ s.counters.inflight.get "d" = some 1 ∧
      0 ∈ s.active ∧ ¬ Sound s := by
  have hrun : (replay step Free State.init unpulledRun).any (fun s =>
      decide (s.holders = [] ∧ s.counters.inflight.get "d" = some 1 ∧ 0 ∈ s.active)) = true := by
    decide +kernel
  obtain ⟨s, hr, hs⟩ := reach_any hrun
  obtain ⟨hh, hd, ha⟩ := of_decide_eq_true hs
  refine ⟨s, hr, hh, hd, ha, fun hsound => ?_⟩
  have hcount := hsound.counts "d"
  rw [hd, hh] at hcount
  simp at hcount

end SparkDeck.Proxy
