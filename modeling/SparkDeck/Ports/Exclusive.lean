import SparkDeck.Lib.Table
import SparkDeck.Ports.Allocate

/-!
# No port twice

`Acc` is what holds in every run: a reservation belongs to one creation in progress, and goes with
it. `Apart` is what holds where the steps are `Orderly`: the port of a container that is there or
being created is reserved, recorded, or in the result of every scan under way. A port that is taken
is in none of them (`allocatePort_fresh`), so it is nobody's.
-/

namespace SparkDeck.Ports

open Transition
open scoped Table

variable {s s' : State} {c c' d : Call} {i j k p : ℕ} {a : Act}

/-! ## What a step does -/

theorem step_cases (h : step s a = some s') :
    (∃ kind, a = .start kind ∧ s' = { s with calls := s.calls ++ [Call.new kind] }) ∨
      (∃ first last others, a = .configure first last others ∧
        s' = { s with first := first, last := last, others := others }) ∨
      ∃ c, s.calls[a.call]? = some c ∧ stepCall s a.call c a = some s' := by
  unfold step at h
  split at h
  · exact Or.inl ⟨_, rfl, (Option.some.inj h).symm⟩
  · exact Or.inr (Or.inl ⟨_, _, _, rfl, (Option.some.inj h).symm⟩)
  · split at h
    · next c hc => exact Or.inr (Or.inr ⟨c, hc, h⟩)
    · cases h

theorem allocatePort_fresh (h : allocatePort s c = some p) : p ∉ usedHostPorts s c := by
  have hp := List.find?_some h
  simpa using hp

@[simp] theorem put_calls : (s.put k c).calls = s.calls.set k c := rfl
@[simp] theorem unlock_calls : (s.unlock k).calls = s.calls := rfl
@[simp] theorem unlock_reservations : (s.unlock k).reservations = s.reservations := rfl
@[simp] theorem unlock_records : (s.unlock k).records = s.records := rfl

@[simp] theorem claim_calls (kind : Kind) : (s.claim k p kind).calls = s.calls := by
  cases kind <;> rfl

theorem claim_reservations (kind : Kind) :
    (s.claim k p kind).reservations =
      if kind = .member then s.reservations ++ [p] else s.reservations := by
  cases kind <;> rfl

theorem claim_records (kind : Kind) :
    (s.claim k p kind).records =
      if kind = .deployment then s.records ++ [(k, p)] else s.records := by
  cases kind <;> rfl

/-! ## Reservations -/

/-- The member holds a reservation of `p`. -/
def Call.Reserves (c : Call) (p : ℕ) : Prop :=
  c.kind = .member ∧ c.port = some p ∧ (c.stage = .creating ∨ c.stage = .settled)

structure Good (reservations : List ℕ) (c : Call) : Prop where
  early : c.stage = .waiting ∨ c.isPending → c.port = none
  bare : c.port = none → c.made = .none ∧ c.releases = 0 ∧ c.stage ≠ .creating
  reserved : ∀ p, c.Reserves p → p ∈ reservations ∧ c.releases = 0
  settled : c.stage = .settled → c.kind = .member ∧ c.port.isSome ∧ c.made ≠ .starting
  released : c.kind = .member → c.port.isSome → c.stage = .over →
    c.releases = 1 ∧ c.made ≠ .starting
  once : c.releases ≤ 1 ∧
    (c.releases = 1 → c.kind = .member ∧ c.port.isSome ∧ c.stage = .over)

structure Acc (s : State) : Prop where
  owned : ∀ p ∈ s.reservations, ∃ (k : ℕ) (c : Call), s.calls[k]? = some c ∧ c.Reserves p
  distinct : ∀ (j k : ℕ) (c d : Call) (p : ℕ), s.calls[j]? = some c → s.calls[k]? = some d →
    c.Reserves p → d.Reserves p → j = k
  good : ∀ (k : ℕ) (c : Call), s.calls[k]? = some c → Good s.reservations c

theorem Acc.accounted (h : Acc s) : Accounted s where
  owned p hp := by
    obtain ⟨k, c, hk, hkind, hport, hstage⟩ := h.owned p hp
    exact ⟨k, c, hk, hkind, hport, hstage⟩
  reserved k c p hk hkind hport hstage := (h.good k c hk).reserved p ⟨hkind, hport, hstage⟩
  released k c hk := (h.good k c hk).released
  once k c hk := (h.good k c hk).once

theorem acc_init (first last : ℕ) (others : List ℕ) : Acc (init first last others) where
  owned p hp := absurd hp List.not_mem_nil
  distinct j k c d p hj := by cases hj
  good k c hk := by cases hk

/-- One call goes on, and the reservations stay. -/
theorem Acc.update (h : Acc s) (hk : s.calls[k]? = some c) (hcalls : s'.calls = s.calls.set k c')
    (hres : s'.reservations = s.reservations) (hgood : Good s.reservations c')
    (hsame : ∀ p, c'.Reserves p ↔ c.Reserves p) : Acc s' where
  owned p hp := by
    rw [hres] at hp
    obtain ⟨i, d, hi, hd⟩ := h.owned p hp
    by_cases hik : i = k
    · subst hik
      cases Option.some.inj (hk.symm.trans hi)
      exact ⟨i, c', by rw [hcalls, Table.get_set_self hk], (hsame p).mpr hd⟩
    · exact ⟨i, d, by rw [hcalls, Table.get_set_ne hi hik], hd⟩
  distinct i j d e p hi hj hd he := by
    rw [hcalls] at hi hj
    -- both reserved `p` before
    have hold : ∀ {i : ℕ} {d : Call}, (s.calls.set k c')[i]? = some d → d.Reserves p →
        ∃ e : Call, s.calls[i]? = some e ∧ e.Reserves p := by
      intro i d hi hd
      rcases Table.set_cases hi with ⟨rfl, rfl⟩ | ⟨_, hi⟩
      · exact ⟨c, hk, (hsame p).mp hd⟩
      · exact ⟨d, hi, hd⟩
    obtain ⟨d', hi, hd⟩ := hold hi hd
    obtain ⟨e', hj, he⟩ := hold hj he
    exact h.distinct i j d' e' p hi hj hd he
  good i d hi := by
    rw [hcalls] at hi
    rw [hres]
    rcases Table.set_cases hi with ⟨rfl, rfl⟩ | ⟨_, hi⟩
    · exact hgood
    · exact h.good i d hi

theorem Good.mono {l l' : List ℕ} (h : Good l c) (hl : ∀ p, c.Reserves p → p ∈ l → p ∈ l') :
    Good l' c :=
  { h with reserved := fun p hp => ⟨hl p hp (h.reserved p hp).1, (h.reserved p hp).2⟩ }

/-- A member takes a port that is not reserved. -/
theorem Acc.reserve (h : Acc s) (hk : s.calls[k]? = some c) (hnone : ∀ q, ¬c.Reserves q)
    (hcalls : s'.calls = s.calls.set k c') (hres : s'.reservations = s.reservations ++ [p])
    (hp : p ∉ s.reservations) (hgood : Good (s.reservations ++ [p]) c')
    (hnew : ∀ q, c'.Reserves q ↔ q = p) : Acc s' where
  owned q hq := by
    rw [hres] at hq
    rcases List.mem_append.mp hq with hq | hq
    · obtain ⟨i, d, hi, hd⟩ := h.owned q hq
      have hik : i ≠ k := by
        rintro rfl
        cases Option.some.inj (hk.symm.trans hi)
        exact hnone q hd
      exact ⟨i, d, by rw [hcalls, Table.get_set_ne hi hik], hd⟩
    · exact ⟨k, c', by rw [hcalls, Table.get_set_self hk], (hnew q).mpr (List.mem_singleton.mp hq)⟩
  distinct i j d e q hi hj hd he := by
    rw [hcalls] at hi hj
    rcases Table.set_cases hi with ⟨rfl, rfl⟩ | ⟨hik, hi⟩
    · rcases Table.set_cases hj with ⟨rfl, rfl⟩ | ⟨_, hj⟩
      · rfl
      · cases (hnew q).mp hd
        exact absurd ((h.good j e hj).reserved _ he).1 hp
    · rcases Table.set_cases hj with ⟨rfl, rfl⟩ | ⟨_, hj⟩
      · cases (hnew q).mp he
        exact absurd ((h.good i d ‹_›).reserved _ hd).1 hp
      · exact h.distinct i j d e q hi hj hd he
  good i d hi := by
    rw [hcalls] at hi
    rw [hres]
    rcases Table.set_cases hi with ⟨rfl, rfl⟩ | ⟨_, hi⟩
    · exact hgood
    · exact (h.good i d hi).mono fun q _ hq => List.mem_append_left _ hq

/-- The callback of a settled creation. -/
theorem Acc.release (h : Acc s) (hk : s.calls[k]? = some c) (hst : c.stage = .settled) :
    Acc { s.put k { c with stage := .over, releases := c.releases + 1 } with
      reservations := s.reservations.filter fun q => c.port ≠ some q } := by
  have hgood := h.good k c hk
  obtain ⟨hkind, hport, hmade⟩ := hgood.settled hst
  obtain ⟨p, hp⟩ := Option.isSome_iff_exists.mp hport
  have hres : c.Reserves p := ⟨hkind, hp, Or.inr hst⟩
  constructor
  case owned =>
    intro q hq
    obtain ⟨hq, hne⟩ := List.mem_filter.mp hq
    obtain ⟨i, d, hi, hd⟩ := h.owned q hq
    have hik : i ≠ k := by
      rintro rfl
      cases Option.some.inj (hk.symm.trans hi)
      exact of_decide_eq_true hne hd.2.1
    exact ⟨i, d, Table.get_set_ne hi hik, hd⟩
  case distinct =>
    intro i j d e q hi hj hd he
    rcases Table.set_cases hi with ⟨rfl, rfl⟩ | ⟨_, hi⟩
    · rcases hd.2.2 with hd | hd <;> cases hd
    · rcases Table.set_cases hj with ⟨rfl, rfl⟩ | ⟨_, hj⟩
      · rcases he.2.2 with he | he <;> cases he
      · exact h.distinct i j d e q hi hj hd he
  case good =>
    intro i d hi
    rcases Table.set_cases hi with ⟨rfl, he⟩ | ⟨hik, hi⟩
    · rw [he]
      have hzero := (hgood.reserved p hres).2
      constructor
      case early => exact fun he => by rcases he with he | he <;> cases he
      case bare => exact fun hn => by cases hp.symm.trans hn
      case reserved => exact fun q hq => by rcases hq.2.2 with hq | hq <;> cases hq
      case settled => exact nofun
      case released => exact fun _ _ _ => ⟨by rw [hzero], hmade⟩
      case once => exact ⟨Nat.le_of_eq (congrArg (· + 1) hzero), fun _ => ⟨hkind, hport, rfl⟩⟩
    · refine (h.good i d hi).mono fun q hd hq => List.mem_filter.mpr ⟨hq, decide_eq_true ?_⟩
      intro hpq
      exact hik (h.distinct i k d c q hi hk hd ⟨hkind, hpq, Or.inr hst⟩)

theorem Acc.start (h : Acc s) (kind : Kind) : Acc { s with calls := s.calls ++ [Call.new kind] } where
  owned p hp := by
    obtain ⟨k, c, hk, hc⟩ := h.owned p hp
    exact ⟨k, c, Table.get_append hk, hc⟩
  distinct i j d e p hi hj hd he := by
    rcases Table.append_cases hi with hi | ⟨_, rfl⟩
    · rcases Table.append_cases hj with hj | ⟨_, rfl⟩
      · exact h.distinct i j d e p hi hj hd he
      · cases he.2.1
    · cases hd.2.1
  good k c hk := by
    rcases Table.append_cases hk with hk | ⟨_, rfl⟩
    · exact h.good k c hk
    · constructor
      case early => exact fun _ => rfl
      case bare => exact fun _ => ⟨rfl, rfl, nofun⟩
      case reserved => exact fun p hp => by cases hp.2.1
      case settled => exact nofun
      case released => exact nofun
      case once => exact ⟨Nat.zero_le 1, nofun⟩

theorem Good.unreserved {l : List ℕ} (h : Good l c)
    (he : c.stage = .waiting ∨ c.isPending) (q : ℕ) : ¬c.Reserves q := by
  intro hq
  cases (h.early he).symm.trans hq.2.1

/-- The same call in another stage of its allocation, or given up. -/
theorem Good.early_moved {l : List ℕ} (h : Good l c) (he : c.stage = .waiting ∨ c.isPending)
    (hport : c'.port = c.port) (hmade : c'.made = c.made) (hrel : c'.releases = c.releases)
    (hset : c'.stage ≠ .settled ∧ c'.stage ≠ .creating) : Good l c' := by
  have hnone := h.early he
  obtain ⟨hm, hr, _⟩ := h.bare hnone
  have hnone' := hport.trans hnone
  have hrel' := hrel.trans hr
  constructor
  case early => exact fun _ => hnone'
  case bare => exact fun _ => ⟨hmade.trans hm, hrel', hset.2⟩
  case reserved => exact fun q hq => by cases hnone'.symm.trans hq.2.1
  case settled => exact fun hs => absurd hs hset.1
  case released => exact fun _ hp => by rw [hnone'] at hp; cases hp
  case once => exact ⟨hrel' ▸ Nat.zero_le 1, fun h1 => by cases hrel'.symm.trans h1⟩

/-- A call whose allocation goes on, or is given up. -/
theorem Acc.moved (h : Acc s) (hk : s.calls[k]? = some c)
    (he : c.stage = .waiting ∨ c.isPending) (hcalls : s'.calls = s.calls.set k c')
    (hres : s'.reservations = s.reservations) (hport : c'.port = c.port) (hmade : c'.made = c.made)
    (hrel : c'.releases = c.releases) (hset : c'.stage ≠ .settled ∧ c'.stage ≠ .creating) :
    Acc s' := by
  have hgood := h.good k c hk
  refine h.update hk hcalls hres (hgood.early_moved he hport hmade hrel hset) fun q => ?_
  refine iff_of_false (fun hq => ?_) (hgood.unreserved he q)
  exact hq.2.2.elim hset.2 hset.1

theorem isPending_iff : c.isPending ↔ c.stage = .scanning ∨ c.stage = .scanned := by
  unfold Call.isPending
  rw [Bool.or_eq_true, decide_eq_true_eq, decide_eq_true_eq]

theorem Acc.takes (h : Acc s) (hk : s.calls[k]? = some c) (hst : c.stage = .scanned)
    (hp : p ∉ s.reservations) :
    Acc (((s.put k { c with stage := .creating, port := some p }).claim k p c.kind).unlock k) := by
  have hgood := h.good k c hk
  have he : c.stage = .waiting ∨ c.isPending := Or.inr (isPending_iff.mpr (Or.inr hst))
  obtain ⟨hm, hr, _⟩ := hgood.bare (hgood.early he)
  have hnew : ∀ l : List ℕ, (c.kind = .member → p ∈ l) →
      Good l { c with stage := .creating, port := some p } := by
    intro l hl
    constructor
    case early => exact fun h => by rcases h with h | h <;> cases h
    case bare | settled | released => exact nofun
    case reserved =>
      rintro q ⟨hkind, hq, _⟩
      cases hq
      exact ⟨hl hkind, hr⟩
    case once => exact ⟨by rw [hr]; exact Nat.zero_le 1, fun h1 => by cases hr.symm.trans h1⟩
  by_cases hkind : c.kind = .member
  · refine h.reserve hk (hgood.unreserved he) (by simp) ?_ hp
      (hnew _ fun _ => List.mem_append_right _ (List.mem_singleton.mpr rfl)) fun q => ?_
    · rw [unlock_reservations, claim_reservations, if_pos hkind]
      rfl
    · constructor
      · rintro ⟨_, hq, _⟩
        exact (Option.some.inj hq).symm
      · rintro rfl
        exact ⟨hkind, rfl, Or.inl rfl⟩
  · refine h.update hk (by simp) ?_ (hnew _ fun hm => absurd hm hkind) fun q => ?_
    · rw [unlock_reservations, claim_reservations, if_neg hkind]
      rfl
    · exact iff_of_false (fun hq => hkind hq.1) (hgood.unreserved he q)

/-- The container of a call with a port starts, runs or goes. -/
theorem Acc.makes (h : Acc s) (hk : s.calls[k]? = some c) (m : Made) (hport : c.port ≠ none)
    (hstart : m = .starting → c.stage = .creating) : Acc (s.put k { c with made := m }) := by
  obtain ⟨hearly, _, hreserved, hsettled, hreleased, honce⟩ := h.good k c hk
  refine h.update hk rfl rfl ?_ fun q => Iff.rfl
  constructor
  case early => exact hearly
  case bare => exact fun hn => absurd hn hport
  case reserved => exact hreserved
  case settled =>
    intro hst
    obtain ⟨hkind, hsome, _⟩ := hsettled hst
    exact ⟨hkind, hsome, fun hm => Stage.noConfusion (hst.symm.trans (hstart hm))⟩
  case released =>
    intro hkind hsome hst
    exact ⟨(hreleased hkind hsome hst).1, fun hm => Stage.noConfusion (hst.symm.trans (hstart hm))⟩
  case once => exact honce

theorem Acc.stepCall (h : Acc s) (hk : s.calls[k]? = some c) (hs : stepCall s k c a = some s') :
    Acc s' := by
  have hgood := h.good k c hk
  obtain ⟨hearly, hbare, hreserved, hsettled, hreleased, honce⟩ := hgood
  cases a with
  | start kind => cases hs
  | configure first last others => cases hs
  | scan i =>
    dsimp only [Ports.stepCall] at hs
    obtain ⟨hc, rfl⟩ := guard_some hs
    exact h.moved hk (Or.inl hc.1) rfl rfl rfl rfl rfl ⟨nofun, nofun⟩
  | scanEnds i seen =>
    dsimp only [Ports.stepCall] at hs
    obtain ⟨hc, rfl⟩ := guard_some hs
    exact h.moved hk (Or.inr (isPending_iff.mpr (Or.inl hc.1))) rfl rfl rfl rfl rfl ⟨nofun, nofun⟩
  | allocate i =>
    dsimp only [Ports.stepCall] at hs
    obtain ⟨hc, hs⟩ := Option.ite_none_right_eq_some.mp hs
    split at hs
    case h_1 =>
      cases hs
      exact h.moved hk (Or.inr (isPending_iff.mpr (Or.inr hc))) rfl rfl rfl rfl rfl ⟨nofun, nofun⟩
    case h_2 p hp =>
      cases hs
      exact h.takes hk hc fun hm => allocatePort_fresh hp (List.mem_append_right _ hm)
  | cancel i =>
    dsimp only [Ports.stepCall] at hs
    obtain ⟨hc, rfl⟩ := guard_some hs
    refine h.update hk rfl rfl ?_ fun q => ?_
    · constructor <;> grind [Call.Reserves, Call.isPending]
    · grind [Call.Reserves, Call.isPending]
  | create i =>
    dsimp only [Ports.stepCall] at hs
    obtain ⟨hc, rfl⟩ := guard_some hs
    exact h.makes hk _ (fun hn => (hbare hn).2.2 hc.1) fun _ => hc.1
  | created i | createFails i | remove i =>
    dsimp only [Ports.stepCall] at hs
    obtain ⟨hc, rfl⟩ := guard_some hs
    exact h.makes hk _ (fun hn => Made.noConfusion ((hbare hn).1.symm.trans hc)) nofun
  | settle i =>
    dsimp only [Ports.stepCall] at hs
    obtain ⟨hc, rfl⟩ := guard_some hs
    have hport : c.port.isSome := by
      by_contra hn
      exact (hbare (Option.not_isSome_iff_eq_none.mp hn)).2.2 hc.1
    refine h.update hk rfl rfl ?_ fun q => ?_
    · constructor <;> grind [Call.Reserves, Call.isPending]
    · grind [Call.Reserves]
  | release i =>
    dsimp only [Ports.stepCall] at hs
    obtain ⟨hc, rfl⟩ := guard_some hs
    exact h.release hk hc
  | record i =>
    dsimp only [Ports.stepCall] at hs
    split at hs
    case h_1 =>
      cases hs
      exact { h with }
    case h_2 => cases hs
  | retire i =>
    dsimp only [Ports.stepCall] at hs
    obtain ⟨_, rfl⟩ := guard_some hs
    exact { h with }

theorem Acc.step (h : Acc s) (hs : Ports.step s a = some s') : Acc s' := by
  rcases step_cases hs with ⟨kind, _, rfl⟩ | ⟨first, last, others, _, rfl⟩ | ⟨c, hk, hs⟩
  · exact h.start kind
  · exact { h with }
  · exact h.stepCall hk hs

/-! ## Ports -/

/-- The port is reserved or recorded for its call. -/
def Covered (s : State) (k : ℕ) (c : Call) (p : ℕ) : Prop :=
  c.Reserves p ∨ c.kind = .deployment ∧ (k, p) ∈ s.records

/-- What the scan of `c` says of the call `j`: it is in it, or its port is covered. -/
structure Apart (s : State) : Prop where
  /-- What no scan can miss is the rest. -/
  cover : ∀ (j : ℕ) (d : Call) (p : ℕ), s.calls[j]? = some d → d.holds → d.port = some p →
    d.kind ≠ .standalone → d.made ≠ .live → Covered s j d p
  pending : ∀ (i : ℕ) (c : Call), s.calls[i]? = some c → c.isPending →
    ∀ (j : ℕ) (d : Call) (p : ℕ), s.calls[j]? = some d → d.holds → d.port = some p →
      d.kind ≠ .standalone → j ∈ c.before ∨ Covered s j d p
  before : ∀ (i : ℕ) (c : Call), s.calls[i]? = some c → c.isPending → ∀ j ∈ c.before,
    ∃ d : Call, s.calls[j]? = some d ∧ (d.made = .live ∨ d.made = .gone)
  seen : ∀ (i : ℕ) (c : Call), s.calls[i]? = some c → c.stage = .scanned → ∀ j ∈ c.before,
    ∀ (d : Call) (p : ℕ), s.calls[j]? = some d → d.made = .live → d.port = some p → p ∈ c.seen
  exclusive : Exclusive s

/-- A call goes on that takes no port: it holds what it held. -/
structure Evolves (c c' : Call) : Prop where
  kind : c'.kind = c.kind
  port : c'.port = c.port
  late : c'.isPending = false
  live : c.made = .live → c'.made = .live ∨ c'.made = .gone
  gone : c.made = .gone → c'.made = .gone
  holds : c'.holds → c.holds
  reserves : ∀ p, c.Reserves p → c'.Reserves p

/-- What a step of a call does. -/
inductive Did (s : State) (k : ℕ) (c : Call) : Act → State → Prop
  | scan (i : ℕ) (s' : State) (hst : c.stage = .waiting)
      (hcalls : s'.calls = s.calls.set k { c with
        stage := .scanning, before := (List.range s.calls.length).filter (isLive s) })
      (hres : s'.reservations = s.reservations) (hrec : s'.records = s.records) :
      Did s k c (.scan i) s'
  | scanEnds (i : ℕ) (seen : List ℕ) (hst : c.stage = .scanning) (hseen : ∀ p ∈ owed s c, p ∈ seen) :
      Did s k c (.scanEnds i seen) (s.put k { c with stage := .scanned, seen := seen })
  | takes (i p : ℕ) (hst : c.stage = .scanned) (hp : p ∉ usedHostPorts s c) :
      Did s k c (.allocate i)
        (((s.put k { c with stage := .creating, port := some p }).claim k p c.kind).unlock k)
  | evolves (a : Act) (c' : Call) (s' : State) (he : Evolves c c')
      (hcalls : s'.calls = s.calls.set k c') (hres : s'.reservations = s.reservations)
      (hrec : s'.records = s.records) : Did s k c a s'
  | release (i : ℕ) (hst : c.stage = .settled) :
      Did s k c (.release i) { s.put k { c with stage := .over, releases := c.releases + 1 } with
        reservations := s.reservations.filter fun p => c.port ≠ some p }
  | record (i p : ℕ) : Did s k c (.record i) { s with records := s.records ++ [(k, p)] }
  | retire (i : ℕ) :
      Did s k c (.retire i) { s with records := s.records.filter fun x => x.1 ≠ k }

theorem did_of_stepCall (he : c.stage = .waiting ∨ c.isPending → c.port = none ∧ c.made = .none)
    (hs : stepCall s k c a = some s') : Did s k c a s' := by
  cases a with
  | start kind => cases hs
  | configure first last others => cases hs
  | scan i =>
    dsimp only [stepCall] at hs
    obtain ⟨hc, rfl⟩ := guard_some hs
    exact .scan i _ hc.1 rfl rfl rfl
  | scanEnds i seen =>
    dsimp only [stepCall] at hs
    obtain ⟨hc, rfl⟩ := guard_some hs
    exact .scanEnds i seen hc.1 hc.2
  | allocate i =>
    dsimp only [stepCall] at hs
    obtain ⟨hc, hs⟩ := Option.ite_none_right_eq_some.mp hs
    split at hs
    case h_1 =>
      cases hs
      refine .evolves _ _ _ ?_ rfl rfl rfl
      constructor <;> grind [Call.isPending, Call.holds, Call.Reserves]
    case h_2 p hp =>
      cases hs
      exact .takes i p hc (allocatePort_fresh hp)
  | release i =>
    dsimp only [stepCall] at hs
    obtain ⟨hc, rfl⟩ := guard_some hs
    exact .release i hc
  | record i =>
    dsimp only [stepCall] at hs
    split at hs
    case h_1 p _ _ =>
      cases hs
      exact .record i p
    case h_2 => cases hs
  | retire i =>
    dsimp only [stepCall] at hs
    obtain ⟨_, rfl⟩ := guard_some hs
    exact .retire i
  | cancel i | _ =>
    dsimp only [stepCall] at hs
    obtain ⟨hc, rfl⟩ := guard_some hs
    refine .evolves _ _ _ ?_ rfl rfl rfl
    constructor <;> grind [Call.isPending, Call.holds, Call.Reserves]

theorem Acc.idle (h : Acc s) (hk : s.calls[k]? = some c)
    (he : c.stage = .waiting ∨ c.isPending) : c.port = none ∧ c.made = .none := by
  have hgood := h.good k c hk
  exact ⟨hgood.early he, (hgood.bare (hgood.early he)).1⟩

theorem holds_live (h : c.holds) (hst : c.stage ≠ .creating) (hm : c.made ≠ .starting) :
    c.made = .live := by
  grind [Call.holds]

theorem not_holds_gone (h : c.made = .gone) : c.holds = false := by
  grind [Call.holds]

theorem mem_owed (hj : s.calls[j]? = some d) (hd : d.made = .live) (hp : d.port = some p)
    (hb : j ∈ c.before) : p ∈ owed s c := by
  refine List.mem_filterMap.mpr ⟨j, hb, ?_⟩
  rw [hj]
  dsimp only
  rw [if_pos hd, hp]

theorem Apart.start (h : Apart s) (kind : Kind) :
    Apart { s with calls := s.calls ++ [Call.new kind] } := by
  have hold : ∀ {i : ℕ} {d : Call}, (s.calls ++ [Call.new kind])[i]? = some d →
      s.calls[i]? = some d ∨ d = Call.new kind := fun hi =>
    (Table.append_cases hi).imp id And.right
  constructor
  case cover =>
    intro j d p hj hd
    rcases hold hj with hj | rfl
    · exact h.cover j d p hj hd
    · cases hd
  case pending =>
    intro i c hi hc j d p hj hd
    rcases hold hi with hi | rfl
    · rcases hold hj with hj | rfl
      · exact h.pending i c hi hc j d p hj hd
      · cases hd
    · cases hc
  case before =>
    intro i c hi hc j hj
    rcases hold hi with hi | rfl
    · obtain ⟨d, hj, hd⟩ := h.before i c hi hc j hj
      exact ⟨d, Table.get_append hj, hd⟩
    · cases hc
  case seen =>
    intro i c hi hc j hjb d p hj hd hp
    rcases hold hi with hi | rfl
    · rcases hold hj with hj | rfl
      · exact h.seen i c hi hc j hjb d p hj hd hp
      · cases hp
    · cases hc
  case exclusive =>
    intro i j c d p hi hj hne hc hd
    rcases hold hi with hi | rfl
    · rcases hold hj with hj | rfl
      · exact h.exclusive i j c d p hi hj hne hc hd
      · cases hd
    · cases hc

/-- One call evolves. -/
theorem Apart.evolve (h : Apart s) (hk : s.calls[k]? = some c) (he : Evolves c c')
    (hcalls : s'.calls = s.calls.set k c') (hrec : s'.records = s.records) : Apart s' := by
  have hcover : ∀ {j d p}, Covered s j d p → Covered s' j d p := by
    intro j d p hd
    unfold Covered at hd ⊢
    rwa [hrec]
  have hself : ∀ {p}, Covered s k c p → Covered s' k c' p := by
    intro p hd
    exact hcover (hd.imp (he.reserves p) fun hd => ⟨he.kind.trans hd.1, hd.2⟩)
  -- a call that goes from live is gone, and holds nothing
  have hlive : c'.holds → c'.made ≠ .live → c.made ≠ .live := by
    intro hh hm hl
    rcases he.live hl with hl | hl
    · exact hm hl
    · rw [not_holds_gone hl] at hh
      cases hh
  constructor
  case cover =>
    intro j d p hj hd hp hkind hm
    rw [hcalls] at hj
    rcases Table.set_cases hj with ⟨rfl, rfl⟩ | ⟨_, hj⟩
    · exact hself (h.cover j c p hk (he.holds hd) (he.port ▸ hp) (he.kind ▸ hkind) (hlive hd hm))
    · exact hcover (h.cover j d p hj hd hp hkind hm)
  case pending =>
    intro i b hi hb j d p hj hd hp hkind
    rw [hcalls] at hi hj
    rcases Table.set_cases hi with ⟨rfl, rfl⟩ | ⟨_, hi'⟩
    · rw [he.late] at hb
      cases hb
    · rcases Table.set_cases hj with ⟨rfl, rfl⟩ | ⟨_, hj⟩
      · exact (h.pending i b hi' hb j c p hk (he.holds hd) (he.port ▸ hp) (he.kind ▸ hkind)).imp id
          hself
      · exact (h.pending i b hi' hb j d p hj hd hp hkind).imp id hcover
  case before =>
    intro i b hi hb j hj
    rw [hcalls] at hi
    rcases Table.set_cases hi with ⟨rfl, rfl⟩ | ⟨_, hi⟩
    · rw [he.late] at hb
      cases hb
    · obtain ⟨d, hd, hmade⟩ := h.before i b hi hb j hj
      by_cases hjk : j = k
      · subst hjk
        cases Option.some.inj (hk.symm.trans hd)
        refine ⟨c', by rw [hcalls, Table.get_set_self hk], ?_⟩
        exact hmade.elim he.live fun hg => Or.inr (he.gone hg)
      · exact ⟨d, by rw [hcalls, Table.get_set_ne hd hjk], hmade⟩
  case seen =>
    intro i b hi hb j hjb d p hj hm hp
    rw [hcalls] at hi hj
    rcases Table.set_cases hi with ⟨rfl, rfl⟩ | ⟨_, hi'⟩
    · have hlate := he.late
      rw [isPending_iff.mpr (Or.inr hb)] at hlate
      cases hlate
    · rcases Table.set_cases hj with ⟨rfl, rfl⟩ | ⟨_, hj⟩
      · obtain ⟨d', hd', hmade⟩ := h.before i b hi' (isPending_iff.mpr (Or.inr hb)) j hjb
        cases Option.some.inj (hk.symm.trans hd')
        rcases hmade with hl | hg
        · exact h.seen i b hi' hb j hjb c p hk hl (he.port ▸ hp)
        · cases hm.symm.trans (he.gone hg)
      · exact h.seen i b hi' hb j hjb d p hj hm hp
  case exclusive =>
    have hold : ∀ {i : ℕ} {d : Call}, s'.calls[i]? = some d → d.holds →
        ∃ e : Call, s.calls[i]? = some e ∧ e.holds ∧ e.port = d.port := by
      intro i d hi hd
      rw [hcalls] at hi
      rcases Table.set_cases hi with ⟨rfl, rfl⟩ | ⟨_, hi⟩
      · exact ⟨c, hk, he.holds hd, he.port.symm⟩
      · exact ⟨d, hi, hd, rfl⟩
    intro i j b d p hi hj hne hb hd hp hp'
    obtain ⟨b', hi, hb, hpb⟩ := hold hi hb
    obtain ⟨d', hj, hd, hpd⟩ := hold hj hd
    exact h.exclusive i j b' d' p hi hj hne hb hd (hpb.trans hp) (hpd.trans hp')

/-- A call without a port looks at the others, and has seen those before it. -/
theorem Apart.look (h : Apart s) (hcalls : s'.calls = s.calls.set k c')
    (hk : s.calls[k]? = some c) (hnone : c.made = .none) (hidle : c'.port = none) (hrec : s'.records = s.records)
    (hpend : c'.isPending → ∀ (j : ℕ) (d : Call) (p : ℕ), s.calls[j]? = some d →
      d.holds → d.port = some p → d.kind ≠ .standalone → j ∈ c'.before ∨ Covered s j d p)
    (hbefore : c'.isPending → ∀ j ∈ c'.before,
      ∃ d : Call, s.calls[j]? = some d ∧ (d.made = .live ∨ d.made = .gone))
    (hseen : c'.stage = .scanned → ∀ j ∈ c'.before, ∀ (d : Call) (p : ℕ), s.calls[j]? = some d →
      d.made = .live → d.port = some p → p ∈ c'.seen) : Apart s' := by
  have hcover : ∀ {j d p}, Covered s j d p → Covered s' j d p := by
    intro j d p hd
    unfold Covered at hd ⊢
    rwa [hrec]
  constructor
  case cover =>
    intro j d p hj hd hp hkind hm
    rw [hcalls] at hj
    rcases Table.set_cases hj with ⟨rfl, rfl⟩ | ⟨_, hj⟩
    · cases hidle.symm.trans hp
    · exact hcover (h.cover j d p hj hd hp hkind hm)
  case pending =>
    intro i b hi hb j d p hj hd hp hkind
    rw [hcalls] at hi hj
    rcases Table.set_cases hj with ⟨rfl, rfl⟩ | ⟨_, hj'⟩
    · cases hidle.symm.trans hp
    · rcases Table.set_cases hi with ⟨rfl, rfl⟩ | ⟨_, hi⟩
      · exact (hpend hb j d p hj' hd hp hkind).imp id hcover
      · exact (h.pending i b hi hb j d p hj' hd hp hkind).imp id hcover
  case before =>
    intro i b hi hb j hj
    rw [hcalls] at hi
    have hfind : ∃ d : Call, s.calls[j]? = some d ∧ (d.made = .live ∨ d.made = .gone) := by
      rcases Table.set_cases hi with ⟨rfl, rfl⟩ | ⟨_, hi⟩
      · exact hbefore hb j hj
      · exact h.before i b hi hb j hj
    obtain ⟨d, hd, hm⟩ := hfind
    have hjk : j ≠ k := by
      rintro rfl
      cases Option.some.inj (hk.symm.trans hd)
      rw [hnone] at hm
      rcases hm with hm | hm <;> cases hm
    exact ⟨d, by rw [hcalls, Table.get_set_ne hd hjk], hm⟩
  case seen =>
    intro i b hi hb j hjb d p hj hm hp
    rw [hcalls] at hi hj
    rcases Table.set_cases hj with ⟨rfl, rfl⟩ | ⟨_, hj'⟩
    · cases hidle.symm.trans hp
    · rcases Table.set_cases hi with ⟨rfl, rfl⟩ | ⟨_, hi⟩
      · exact hseen hb j hjb d p hj' hm hp
      · exact h.seen i b hi hb j hjb d p hj' hm hp
  case exclusive =>
    intro i j b d p hi hj hne hb hd hp
    rw [hcalls] at hi hj
    rcases Table.set_cases hi with ⟨rfl, rfl⟩ | ⟨_, hi'⟩
    · cases hidle.symm.trans hp
    · rcases Table.set_cases hj with ⟨rfl, rfl⟩ | ⟨_, hj⟩
      · exact fun hp' => by cases hidle.symm.trans hp'
      · exact h.exclusive i j b d p hi' hj hne hb hd hp

/-- The scan of a call begins: what has been created is in it. -/
theorem Apart.scan (h : Apart s) (hk : s.calls[k]? = some c) (hidle : c.port = none ∧ c.made = .none)
    (hcalls : s'.calls = s.calls.set k { c with
      stage := .scanning, before := (List.range s.calls.length).filter (isLive s) })
    (hrec : s'.records = s.records) : Apart s' := by
  refine h.look hcalls hk hidle.2 hidle.1 hrec (fun _ j d p hj hd hp hkind => ?_)
    (fun _ j hj => ?_) nofun
  · by_cases hm : d.made = .live
    · refine Or.inl (List.mem_filter.mpr ⟨List.mem_range.mpr ?_, ?_⟩)
      · exact (List.getElem?_eq_some_iff.mp hj).1
      · rw [isLive, hj]
        exact decide_eq_true hm
    · exact Or.inr (h.cover j d p hj hd hp hkind hm)
  · have hl := (List.mem_filter.mp hj).2
    unfold isLive at hl
    cases hd : s.calls[j]? with
    | none =>
      rw [hd] at hl
      cases hl
    | some d =>
      rw [hd] at hl
      exact ⟨d, rfl, Or.inl (of_decide_eq_true hl)⟩

/-- The scan of a call ends. -/
theorem Apart.scanEnds (h : Apart s) (hk : s.calls[k]? = some c) (hst : c.stage = .scanning)
    (hidle : c.port = none ∧ c.made = .none) {seen : List ℕ} (hseen : ∀ p ∈ owed s c, p ∈ seen) :
    Apart (s.put k { c with stage := .scanned, seen := seen }) :=
  have hpend : c.isPending := isPending_iff.mpr (Or.inl hst)
  h.look rfl hk hidle.2 hidle.1 rfl (fun _ => h.pending k c hk hpend)
    (fun _ => h.before k c hk hpend)
    fun _ _ hb _ p hj hm hp => hseen p (mem_owed hj hm hp hb)

/-- A call takes a port that it has not seen. -/
theorem Apart.takes (h : Apart s) (hacc : Acc s) (hk : s.calls[k]? = some c)
    (hst : c.stage = .scanned) (hp : p ∉ usedHostPorts s c)
    (hc : ∀ (j : ℕ) (d : Call), s.calls[j]? = some d → d.kind = .standalone → d.holds →
      j ∈ c.before) :
    Apart (((s.put k { c with stage := .creating, port := some p }).claim k p c.kind).unlock k) := by
  have hpend : c.isPending := isPending_iff.mpr (Or.inr hst)
  have hidle := hacc.idle hk (Or.inr hpend)
  have hcalls : (((s.put k { c with stage := .creating, port := some p }).claim k p c.kind).unlock
      k).calls = s.calls.set k { c with stage := .creating, port := some p } := by
    rw [unlock_calls, claim_calls, put_calls]
  generalize hs' : ((s.put k { c with stage := .creating, port := some p }).claim k p c.kind).unlock
    k = s' at hcalls
  have hcover : ∀ {j d q}, Covered s j d q → Covered s' j d q := by
    intro j d q hd
    refine hd.imp id fun hd => ⟨hd.1, ?_⟩
    rw [← hs', unlock_records, claim_records]
    split
    · exact List.mem_append_left _ hd.2
    · exact hd.2
  have hself : c.kind ≠ .standalone →
      Covered s' k { c with stage := .creating, port := some p } p := by
    intro hkind
    cases hcase : c.kind with
    | member => exact Or.inl ⟨rfl, rfl, Or.inl rfl⟩
    | standalone => exact absurd hcase hkind
    | deployment =>
      refine Or.inr ⟨rfl, ?_⟩
      rw [← hs', unlock_records, claim_records, if_pos hcase]
      exact List.mem_append_right _ (List.mem_singleton.mpr rfl)
  have hne_of : ∀ {i : ℕ} {d : Call}, s.calls[i]? = some d → d.made = .live ∨ d.made = .gone →
      i ≠ k := by
    rintro i d hi hm rfl
    cases Option.some.inj (hk.symm.trans hi)
    rw [hidle.2] at hm
    rcases hm with hm | hm <;> cases hm
  -- the port is nobody else's
  have hfresh : ∀ (j : ℕ) (d : Call), s.calls[j]? = some d → d.holds → d.port ≠ some p := by
    intro j d hj hd hdp
    have hcases : j ∈ c.before ∨ Covered s j d p := by
      by_cases hkind : d.kind = .standalone
      · exact Or.inl (hc j d hj hkind hd)
      · exact h.pending k c hk hpend j d p hj hd hdp hkind
    rcases hcases with hb | hcov | hcov
    · obtain ⟨d', hj', hm⟩ := h.before k c hk hpend j hb
      cases Option.some.inj (hj.symm.trans hj')
      rcases hm with hl | hg
      · have hseen := h.seen k c hk hst j hb d p hj hl hdp
        exact hp (List.mem_append_left _ (List.mem_append_left _ (List.mem_append_left _ hseen)))
      · rw [not_holds_gone hg] at hd
        cases hd
    · exact hp (List.mem_append_right _ ((hacc.good j d hj).reserved p hcov).1)
    · refine hp (List.mem_append_left _ (List.mem_append_left _ (List.mem_append_right _ ?_)))
      exact List.mem_map.mpr ⟨(j, p), hcov.2, rfl⟩
  constructor
  case cover =>
    intro j d q hj hd hq hkind hm
    rw [hcalls] at hj
    rcases Table.set_cases hj with ⟨rfl, rfl⟩ | ⟨_, hj'⟩
    · cases hq
      exact hself hkind
    · exact hcover (h.cover j d q hj' hd hq hkind hm)
  case pending =>
    intro i b hi hb j d q hj hd hq hkind
    rw [hcalls] at hi hj
    rcases Table.set_cases hi with ⟨rfl, rfl⟩ | ⟨_, hi'⟩
    · cases hb
    · rcases Table.set_cases hj with ⟨rfl, rfl⟩ | ⟨_, hj'⟩
      · cases hq
        exact Or.inr (hself hkind)
      · exact (h.pending i b hi' hb j d q hj' hd hq hkind).imp id hcover
  case before =>
    intro i b hi hb j hj
    rw [hcalls] at hi
    rcases Table.set_cases hi with ⟨rfl, rfl⟩ | ⟨_, hi'⟩
    · cases hb
    · obtain ⟨d, hd, hm⟩ := h.before i b hi' hb j hj
      exact ⟨d, by rw [hcalls, Table.get_set_ne hd (hne_of hd hm)], hm⟩
  case seen =>
    intro i b hi hb j hjb d q hj hm hq
    rw [hcalls] at hi hj
    rcases Table.set_cases hi with ⟨rfl, rfl⟩ | ⟨_, hi'⟩
    · cases hb
    · rcases Table.set_cases hj with ⟨rfl, rfl⟩ | ⟨_, hj'⟩
      · cases hidle.2.symm.trans hm
      · exact h.seen i b hi' hb j hjb d q hj' hm hq
  case exclusive =>
    intro i j b d q hi hj hne hb hd hq hq'
    rw [hcalls] at hi hj
    rcases Table.set_cases hi with ⟨rfl, rfl⟩ | ⟨_, hi'⟩
    · rcases Table.set_cases hj with ⟨rfl, _⟩ | ⟨_, hj'⟩
      · exact hne rfl
      · cases hq
        exact hfresh j d hj' hd hq'
    · rcases Table.set_cases hj with ⟨rfl, rfl⟩ | ⟨_, hj'⟩
      · cases hq'
        exact hfresh i b hi' hb hq
      · exact h.exclusive i j b d q hi' hj' hne hb hd hq hq'

/-- The callback of a settled creation, while every scan under way has its container. -/
theorem Apart.release (h : Apart s) (hacc : Acc s) (hk : s.calls[k]? = some c)
    (hst : c.stage = .settled)
    (hc : c.made = .live → ∀ (j : ℕ) (d : Call), s.calls[j]? = some d → d.isPending →
      k ∈ d.before) :
    Apart { s.put k { c with stage := .over, releases := c.releases + 1 } with
      reservations := s.reservations.filter fun q => c.port ≠ some q } := by
  obtain ⟨_, _, hmade⟩ := (hacc.good k c hk).settled hst
  have hlive : c.holds → c.made = .live := fun hh =>
    holds_live hh (by rw [hst]; nofun) hmade
  have hholds : ∀ n, Call.holds { c with stage := .over, releases := n } → c.holds := by
    grind [Call.holds]
  constructor
  case cover =>
    intro j d p hj hd hp hkind hm
    rcases Table.set_cases hj with ⟨rfl, rfl⟩ | ⟨_, hj'⟩
    · exact absurd (hlive (hholds _ hd)) hm
    · exact h.cover j d p hj' hd hp hkind hm
  case pending =>
    intro i b hi hb j d p hj hd hp hkind
    rcases Table.set_cases hi with ⟨rfl, rfl⟩ | ⟨_, hi'⟩
    · cases hb
    · rcases Table.set_cases hj with ⟨rfl, rfl⟩ | ⟨_, hj'⟩
      · exact Or.inl (hc (hlive (hholds _ hd)) i b hi' hb)
      · exact h.pending i b hi' hb j d p hj' hd hp hkind
  case before =>
    intro i b hi hb j hj
    rcases Table.set_cases hi with ⟨rfl, rfl⟩ | ⟨_, hi'⟩
    · cases hb
    · obtain ⟨d, hd, hm⟩ := h.before i b hi' hb j hj
      by_cases hjk : j = k
      · subst hjk
        cases Option.some.inj (hk.symm.trans hd)
        exact ⟨_, Table.get_set_self hk, hm⟩
      · exact ⟨d, Table.get_set_ne hd hjk, hm⟩
  case seen =>
    intro i b hi hb j hjb d p hj hm hp
    rcases Table.set_cases hi with ⟨rfl, rfl⟩ | ⟨_, hi'⟩
    · cases hb
    · rcases Table.set_cases hj with ⟨rfl, rfl⟩ | ⟨_, hj'⟩
      · exact h.seen i b hi' hb j hjb c p hk hm hp
      · exact h.seen i b hi' hb j hjb d p hj' hm hp
  case exclusive =>
    intro i j b d p hi hj hne hb hd
    rcases Table.set_cases hi with ⟨rfl, rfl⟩ | ⟨_, hi'⟩
    · rcases Table.set_cases hj with ⟨rfl, rfl⟩ | ⟨_, hj'⟩
      · exact absurd rfl hne
      · exact h.exclusive i j c d p hk hj' hne (hholds _ hb) hd
    · rcases Table.set_cases hj with ⟨rfl, rfl⟩ | ⟨_, hj'⟩
      · exact h.exclusive i j b c p hi' hk hne hb (hholds _ hd)
      · exact h.exclusive i j b d p hi' hj' hne hb hd

/-- Only the records change, and what they cover is covered. -/
theorem Apart.records (h : Apart s) (hcalls : s'.calls = s.calls)
    (hcov : ∀ (j : ℕ) (d : Call) (p : ℕ), s.calls[j]? = some d → d.holds →
      Covered s j d p → Covered s' j d p ∨ d.made = .live ∧ ∀ (i : ℕ) (c : Call),
        s.calls[i]? = some c → c.isPending → j ∈ c.before) : Apart s' where
  cover j d p hj hd hp hkind hm := by
    rw [hcalls] at hj
    exact (hcov j d p hj hd (h.cover j d p hj hd hp hkind hm)).resolve_right fun hl => hm hl.1
  pending i c hi hc j d p hj hd hp hkind := by
    rw [hcalls] at hi hj
    rcases h.pending i c hi hc j d p hj hd hp hkind with hb | hcov'
    · exact Or.inl hb
    · exact (hcov j d p hj hd hcov').elim Or.inr fun hl => Or.inl (hl.2 i c hi hc)
  before i c hi hc j hj := by
    rw [hcalls] at hi ⊢
    exact h.before i c hi hc j hj
  seen i c hi hc j hjb d p hj hm hp := by
    rw [hcalls] at hi hj
    exact h.seen i c hi hc j hjb d p hj hm hp
  exclusive i j c d p hi hj := by
    rw [hcalls] at hi hj
    exact h.exclusive i j c d p hi hj

theorem Apart.retire (h : Apart s) (hk : s.calls[k]? = some c)
    (hc : c.holds → c.made = .live ∧ ∀ (j : ℕ) (d : Call), s.calls[j]? = some d →
      d.isPending → k ∈ d.before) :
    Apart { s with records := s.records.filter fun x => x.1 ≠ k } := by
  refine h.records rfl fun j d p hj hd hcov => ?_
  rcases hcov with hcov | ⟨hkind, hmem⟩
  · exact Or.inl (Or.inl hcov)
  · by_cases hjk : j = k
    · subst hjk
      cases Option.some.inj (hk.symm.trans hj)
      exact Or.inr (hc hd)
    · exact Or.inl (Or.inr ⟨hkind, List.mem_filter.mpr ⟨hmem, decide_eq_true hjk⟩⟩)

theorem Apart.step (h : Apart s) (hacc : Acc s) (hc : Orderly s a) (hs : Ports.step s a = some s') :
    Apart s' := by
  rcases step_cases hs with ⟨kind, rfl, rfl⟩ | ⟨first, last, others, rfl, rfl⟩ | ⟨c, hk, hs⟩
  · exact h.start kind
  · exact h.records rfl fun _ _ _ _ _ hcov => Or.inl hcov
  · have hdid := did_of_stepCall (hacc.idle hk) hs
    cases hdid with
    | scan i _ hst hcalls hres hrec => exact h.scan hk (hacc.idle hk (Or.inl hst)) hcalls hrec
    | scanEnds i seen hst hseen =>
      exact h.scanEnds hk hst (hacc.idle hk (Or.inr (isPending_iff.mpr (Or.inl hst)))) hseen
    | takes i p hst hp => exact h.takes hacc hk hst hp (hc c hk)
    | evolves _ c' _ he hcalls hres hrec => exact h.evolve hk he hcalls hrec
    | release i hst => exact h.release hacc hk hst (hc c hk)
    | record i p =>
      exact h.records rfl fun _ _ _ _ _ hcov =>
        Or.inl (hcov.imp id fun hd => ⟨hd.1, List.mem_append_left _ hd.2⟩)
    | retire i => exact h.retire hk (hc c hk)

theorem apart_init (first last : ℕ) (others : List ℕ) : Apart (init first last others) where
  cover j d p hj := by cases hj
  pending i c hi := by cases hi
  before i c hi := by cases hi
  seen i c hi := by cases hi
  exclusive i j c d p hi := by cases hi

/-- In every run reservations and creations in progress correspond; and where every step is
`Orderly`, no two containers have one port. -/
theorem ports_exclusive (first last : ℕ) (others : List ℕ) (s : State) :
    (Reach step Free (init first last others) s → Accounted s) ∧
      (Reach step Orderly (init first last others) s → Exclusive s) := by
  constructor
  · intro hr
    exact (hr.invariant (acc_init first last others) fun _ _ _ h _ hs => h.step hs).accounted
  · intro hr
    have hboth := hr.invariant (P := fun s => Acc s ∧ Apart s)
      ⟨acc_init first last others, apart_init first last others⟩
      fun _ _ _ h hc hs => ⟨h.1.step hs, h.2.step h.1 hc hs⟩
    exact hboth.2.exclusive

/-! ## Runs -/

instance (s : State) : (a : Act) → Decidable (Orderly s a)
  | .allocate _ => inferInstanceAs (Decidable (∀ _ : Call, _ → ∀ (_ : ℕ) (_ : Call), _ → _))
  | .release _ => inferInstanceAs (Decidable (∀ _ : Call, _ → _ → ∀ (_ : ℕ) (_ : Call), _ → _))
  | .retire _ => inferInstanceAs (Decidable (∀ _ : Call, _ → _))
  | .start _ => isTrue trivial
  | .scan _ => isTrue trivial
  | .scanEnds _ _ => isTrue trivial
  | .cancel _ => isTrue trivial
  | .create _ => isTrue trivial
  | .created _ => isTrue trivial
  | .createFails _ => isTrue trivial
  | .settle _ => isTrue trivial
  | .remove _ => isTrue trivial
  | .record _ => isTrue trivial
  | .configure _ _ _ => isTrue trivial

/-- Two members, one after the other. -/
def twoMembers : List Act :=
  [.start .member, .scan 0, .scanEnds 0 [], .allocate 0, .create 0, .created 0, .settle 0,
    .release 0, .start .member, .scan 1, .scanEnds 1 [8000], .allocate 1, .create 1, .created 1]

/-- Two calls hold ports. -/
def bothHold (s : State) : Bool := s.calls.length = 2 && s.calls.all Call.holds

theorem ports_exclusive_members : ∃ s, Exclusive s ∧ Accounted s ∧ bothHold s = true := by
  have hrun : (replay step Orderly (init 8000 8009 []) twoMembers).any bothHold = true := by
    decide +kernel
  obtain ⟨s, hr, hb⟩ := reach_any hrun
  have hboth := ports_exclusive 8000 8009 [] s
  exact ⟨s, hboth.2 hr, hboth.1 hr.free, hb⟩

/-- The reservation of the first member goes after its container was created, but before the second
member, whose scan began earlier, reads the reservations. -/
def missedMember : List Act :=
  [.start .member, .start .member, .scan 0, .scanEnds 0 [], .allocate 0, .create 0, .scan 1,
    .scanEnds 1 [], .created 0, .settle 0, .release 0, .allocate 1]

/-- Two standalone launches take their ports before either has a container. -/
def twoStandalone : List Act :=
  [.start .standalone, .start .standalone, .scan 0, .scan 1, .scanEnds 0 [], .scanEnds 1 [],
    .allocate 0, .allocate 1]

/-- Both of two calls hold one port. -/
def clashes (s : State) : Bool :=
  match s.calls with
  | [c, d] => c.holds && d.holds && c.port = some 8000 && d.port = some 8000
  | _ => false

theorem not_exclusive_of_clashes (h : clashes s) : ¬Exclusive s := by
  intro he
  unfold clashes at h
  split at h
  · next c d hcalls =>
    simp only [Bool.and_eq_true, decide_eq_true_eq] at h
    obtain ⟨⟨⟨hc, hd⟩, hpc⟩, hpd⟩ := h
    exact he 0 1 c d 8000 (by rw [hcalls]; rfl) (by rw [hcalls]; rfl) Nat.zero_ne_one hc hd hpc hpd
  · cases h

theorem ports_shared :
    (∃ s, Reach step Free (init 8000 8009 []) s ∧ ¬Exclusive s ∧
      s.calls.all (·.kind = .member) = true) ∧
    ∃ s, Reach step Free (init 8000 8009 []) s ∧ ¬Exclusive s ∧
      s.calls.all (·.kind = .standalone) = true := by
  constructor
  · have hrun : (replay step Free (init 8000 8009 []) missedMember).any
        (fun s => clashes s && s.calls.all (·.kind = .member)) = true := by decide +kernel
    obtain ⟨s, hr, hs⟩ := reach_any hrun
    obtain ⟨hclash, hkind⟩ := (Bool.and_eq_true _ _).mp hs
    exact ⟨s, hr, not_exclusive_of_clashes hclash, hkind⟩
  · have hrun : (replay step Free (init 8000 8009 []) twoStandalone).any
        (fun s => clashes s && s.calls.all (·.kind = .standalone)) = true := by decide +kernel
    obtain ⟨s, hr, hs⟩ := reach_any hrun
    obtain ⟨hclash, hkind⟩ := (Bool.and_eq_true _ _).mp hs
    exact ⟨s, hr, not_exclusive_of_clashes hclash, hkind⟩

end SparkDeck.Ports
