import SparkDeck.Lib.Table
import SparkDeck.Lifecycle.Calls

/-!
# The lifecycle locks

`Locked` is what `_deployment_lifecycle_lock` keeps, whoever calls: a lock has one holder, and the
two tables have the keys of the calls in progress. A call that moves inside its lock keeps it
(`move`), and so do the three steps that change who is where: `call`, `acquire` and `leave`.
-/

namespace SparkDeck.Lifecycle

open Dict Function

variable {s s' : State} {i : ℕ} {c : Call}

structure Locked (s : State) : Prop where
  counted : Counts s.users ↑(s.calls.filterMap Call.uses)
  tabled : ∀ (i : ℕ) (c : Call), s.calls[i]? = some c → c.stage ≠ .done →
    s.locks.get c.key = some c.lock
  used : ∀ k l, s.locks.get k = some l → k ∈ s.calls.filterMap Call.uses
  apart : ∀ j k l, s.locks.get j = some l → s.locks.get k = some l → j = k
  fresh : ∀ k l, s.locks.get k = some l → l < s.lockCount
  held : ∀ (i : ℕ) (c : Call), s.calls[i]? = some c → c.stage.inside →
    s.holder c.lock = some i
  holds : ∀ l i, s.holder l = some i →
    ∃ c : Call, s.calls[i]? = some c ∧ c.stage.inside ∧ c.lock = l

theorem ne_done_of_inside {st : Stage} (h : st.inside) : st ≠ .done := by
  rintro rfl
  cases h

theorem uses_of {c : Call} (h : c.stage ≠ .done) : c.uses = some c.key := if_neg h

/-- Two calls with one key are not both inside. -/
theorem Locked.one (h : Locked s) {j : ℕ} {d : Call} (hi : s.calls[i]? = some c)
    (hj : s.calls[j]? = some d) (hc : c.stage.inside) (hd : d.stage.inside)
    (hkey : c.key = d.key) : i = j := by
  have hlock : c.lock = d.lock := by
    have h1 := h.tabled i c hi (ne_done_of_inside hc)
    have h2 := h.tabled j d hj (ne_done_of_inside hd)
    rw [hkey, h2] at h1
    exact (Option.some.inj h1).symm
  have h1 := h.held i c hi hc
  rw [hlock, h.held j d hj hd] at h1
  exact (Option.some.inj h1).symm

/-- A stage for another, of a call that uses its lock. -/
theorem Locked.change (h : Locked s) (hi : s.calls[i]? = some c) {st : Stage}
    (hc : c.stage ≠ .done) (hst : st ≠ .done)
    (hcalls : s'.calls = s.calls.set i { c with stage := st }) (husers : s'.users = s.users)
    (hlocks : s'.locks = s.locks) (hcount : s'.lockCount = s.lockCount)
    (hheld : ∀ j d, s'.calls[j]? = some d → d.stage.inside → s'.holder d.lock = some j)
    (hholds : ∀ l j, s'.holder l = some j →
      ∃ d, s'.calls[j]? = some d ∧ d.stage.inside ∧ d.lock = l) : Locked s' := by
  have huses : (s.calls.set i { c with stage := st }).filterMap Call.uses =
      s.calls.filterMap Call.uses :=
    filterMap_set_of_eq hi ((@uses_of { c with stage := st } hst).trans (uses_of hc).symm)
  constructor
  · rw [hcalls, huses, husers]
    exact h.counted
  · intro j d hj hd
    rw [hcalls] at hj
    rw [hlocks]
    rcases Table.set_cases hj with ⟨rfl, rfl⟩ | ⟨-, hj⟩
    · exact h.tabled j c hi hc
    · exact h.tabled j d hj hd
  · rw [hcalls, huses, hlocks]
    exact h.used
  · rw [hlocks]
    exact h.apart
  · rw [hlocks, hcount]
    exact h.fresh
  · exact hheld
  · exact hholds

/-- A stage inside the lock for another. -/
theorem Locked.move (h : Locked s) (hi : s.calls[i]? = some c) {st : Stage}
    (hin : c.stage.inside) (hst : st.inside)
    (hcalls : s'.calls = s.calls.set i { c with stage := st }) (husers : s'.users = s.users)
    (hlocks : s'.locks = s.locks) (hcount : s'.lockCount = s.lockCount)
    (hholder : s'.holder = s.holder) : Locked s' := by
  refine h.change hi (ne_done_of_inside hin) (ne_done_of_inside hst) hcalls husers hlocks hcount ?_ ?_
  · intro j d hj hd
    rw [hcalls] at hj
    rw [hholder]
    rcases Table.set_cases hj with ⟨rfl, rfl⟩ | ⟨-, hj⟩
    · exact h.held j c hi hin
    · exact h.held j d hj hd
  · intro l j hl
    rw [hholder] at hl
    obtain ⟨d, hj, hd, rfl⟩ := h.holds l j hl
    rw [hcalls]
    by_cases hij : j = i
    · subst hij
      cases hi.symm.trans hj
      exact ⟨_, Table.get_set_self hi, hst, rfl⟩
    · exact ⟨d, Table.get_set_ne hj hij, hd, rfl⟩

/-- A call that gets its lock. -/
theorem Locked.acquire (h : Locked s) (hi : s.calls[i]? = some c) (hq : c.stage = .queued)
    (hfree : s.holder c.lock = none)
    (hcalls : s'.calls = s.calls.set i { c with stage := .locked }) (husers : s'.users = s.users)
    (hlocks : s'.locks = s.locks) (hcount : s'.lockCount = s.lockCount)
    (hholder : s'.holder = update s.holder c.lock (some i)) : Locked s' := by
  have hc : c.stage ≠ .done := by rw [hq]; exact nofun
  refine h.change hi hc (show Stage.locked ≠ .done from nofun) hcalls husers hlocks hcount ?_ ?_
  · intro j d hj hd
    rw [hcalls] at hj
    rw [hholder]
    rcases Table.set_cases hj with ⟨rfl, rfl⟩ | ⟨-, hj⟩
    · exact update_self _ _ _
    · have hheld := h.held j d hj hd
      rw [update_of_ne]
      · exact hheld
      · intro he
        rw [he, hfree] at hheld
        cases hheld
  · intro l j hl
    rw [hholder, update_apply] at hl
    rw [hcalls]
    split at hl
    case isTrue he =>
      cases hl
      exact ⟨_, Table.get_set_self hi, rfl, he.symm⟩
    case isFalse =>
      obtain ⟨d, hj, hd, rfl⟩ := h.holds l j hl
      have hij : j ≠ i := by
        rintro rfl
        cases hi.symm.trans hj
        rw [hq] at hd
        cases hd
      exact ⟨d, Table.get_set_ne hj hij, hd, rfl⟩

/-- A call that returns: the lock is free, and out of the table with its last user. -/
theorem Locked.leave (h : Locked s) (hi : s.calls[i]? = some c) (hin : c.stage.inside) :
    Locked (s.leave i c) := by
  have hdown : Counts (s.users.down c.key)
      ↑((s.calls.set i { c with stage := .done }).filterMap Call.uses) :=
    h.counted.set_release hi (uses_of (ne_done_of_inside hin)) rfl
  have htab := h.tabled i c hi (ne_done_of_inside hin)
  have hlocks : ∀ k, (s.leave i c).locks.get k =
      if k = c.key ∧ ¬1 < (s.users.get c.key).getD 0 then none else s.locks.get k := by
    intro k
    simp only [State.leave]
    split
    case isTrue h1 => rw [if_neg (fun hk => hk.2 h1)]
    case isFalse h1 =>
      rw [get_erase]
      by_cases hk : k = c.key
      · rw [if_pos hk, if_pos ⟨hk, h1⟩]
      · rw [if_neg hk, if_neg fun hk' => hk hk'.1]
  -- The last user of a key leaves no other behind.
  have hlast : ∀ {j : ℕ} {d : Call}, (s.calls.set i { c with stage := Stage.done })[j]? = some d →
      d.stage ≠ .done → ¬(d.key = c.key ∧ ¬1 < (s.users.get c.key).getD 0) := by
    intro j d hj hd ⟨hk, h1⟩
    have hmem : c.key ∈ (s.calls.set i { c with stage := Stage.done }).filterMap Call.uses :=
      List.mem_filterMap.mpr ⟨d, List.mem_of_getElem? hj, (uses_of hd).trans (congrArg some hk)⟩
    have hsome := hdown.isSome_iff.mpr hmem
    rw [Dict.down, if_neg h1, get_erase, if_pos rfl] at hsome
    cases hsome
  constructor
  · exact hdown
  · intro j d hj hd
    rw [hlocks, if_neg (hlast hj hd)]
    rcases Table.set_cases hj with ⟨rfl, rfl⟩ | ⟨-, hj⟩
    · exact absurd rfl hd
    · exact h.tabled j d hj hd
  · intro k l hk
    rw [hlocks] at hk
    obtain ⟨hno, hk⟩ := Option.ite_none_left_eq_some.mp hk
    have hmem : k ∈ s.calls.filterMap Call.uses := h.used k l hk
    rw [← Multiset.mem_coe, ← h.counted.isSome_iff] at hmem
    refine hdown.isSome_iff.mp ?_
    unfold Dict.down
    by_cases hkey : k = c.key
    · subst hkey
      rw [if_pos (by_contra fun h1 => hno ⟨rfl, h1⟩), get_insert, if_pos rfl]
      rfl
    · split
      · rwa [get_insert, if_neg hkey]
      · rwa [get_erase, if_neg hkey]
  · intro j k l hj hk
    rw [hlocks] at hj hk
    split at hj
    · cases hj
    · split at hk
      · cases hk
      · exact h.apart j k l hj hk
  · intro k l hk
    rw [hlocks] at hk
    split at hk
    · cases hk
    · exact h.fresh k l hk
  · intro j d hj hd
    rcases Table.set_cases hj with ⟨rfl, rfl⟩ | ⟨hij, hj⟩
    · cases hd
    · have hheld := h.held j d hj hd
      refine (update_of_ne ?_ _ _).trans hheld
      intro he
      rw [he, h.held i c hi hin] at hheld
      exact hij (Option.some.inj hheld).symm
  · intro l j hl
    have hl' : update s.holder c.lock none l = some j := hl
    rw [update_apply] at hl'
    split at hl'
    case isTrue => cases hl'
    case isFalse hne =>
      obtain ⟨d, hj, hd, rfl⟩ := h.holds l j hl'
      have hij : j ≠ i := by
        rintro rfl
        cases hi.symm.trans hj
        exact hne rfl
      exact ⟨d, Table.get_set_ne hj hij, hd, rfl⟩

/-- A new call. -/
theorem Locked.call (h : Locked s) {kind : Kind} {key : String}
    (hs : step s (.call kind key) = some s') : Locked s' := by
  cases hs
  have hlocks : ∀ k, (s.locks.setdefault key s.lockCount).get k =
      if k = key then some (s.lockFor key) else s.locks.get k := by
    intro k
    rw [get_setdefault]
    rfl
  have hfor : ∀ k, s.locks.get k = some (s.lockFor key) → k = key := by
    intro k hk
    unfold State.lockFor at hk
    cases hget : s.locks.get key with
    | none =>
      rw [hget, Option.getD_none] at hk
      exact absurd (h.fresh k _ hk) (Nat.lt_irrefl _)
    | some l =>
      rw [hget, Option.getD_some] at hk
      exact h.apart k key l hk hget
  have huses : (s.calls ++ [Call.mk kind key (s.lockFor key) .queued]).filterMap Call.uses =
      s.calls.filterMap Call.uses ++ [key] := by
    rw [List.filterMap_append]
    rfl
  constructor
  · have hup := h.counted.up key
    rw [Multiset.cons_coe] at hup
    have hperm := Multiset.coe_eq_coe.mpr (List.perm_append_singleton key (s.calls.filterMap Call.uses))
    rw [← hperm, ← huses] at hup
    exact hup
  · intro j d hj hd
    rw [hlocks]
    rcases Table.append_cases hj with hj | ⟨-, rfl⟩
    · have htab := h.tabled j d hj hd
      split
      case isTrue hk =>
        rw [State.lockFor, ← hk, htab, Option.getD_some]
      case isFalse => exact htab
    · rw [if_pos rfl]
  · intro k l hk
    rw [huses, List.mem_append]
    rw [hlocks] at hk
    split at hk
    case isTrue he => exact Or.inr (List.mem_singleton.mpr he)
    case isFalse => exact Or.inl (h.used k l hk)
  · intro j k l hj hk
    rw [hlocks] at hj hk
    split at hj
    case isTrue he =>
      split at hk
      case isTrue he' => exact he.trans he'.symm
      case isFalse =>
        rw [← hj] at hk
        exact he.trans (hfor k hk).symm
    case isFalse =>
      split at hk
      case isTrue he' =>
        rw [← hk] at hj
        exact (hfor j hj).trans he'.symm
      case isFalse => exact h.apart j k l hj hk
  · intro k l hk
    rw [hlocks] at hk
    split at hk
    case isTrue =>
      cases hk
      unfold State.lockFor
      cases hget : s.locks.get key with
      | none => exact Nat.lt_succ_self _
      | some l => exact Nat.lt_succ_of_lt (h.fresh key l hget)
    case isFalse => exact Nat.lt_succ_of_lt (h.fresh k l hk)
  · intro j d hj hd
    rcases Table.append_cases hj with hj | ⟨-, rfl⟩
    · exact h.held j d hj hd
    · cases hd
  · intro l j hl
    obtain ⟨d, hj, hd, he⟩ := h.holds l j hl
    exact ⟨d, Table.get_append hj, hd, he⟩

/-- Nothing in progress, nothing in the tables. -/
theorem Locked.retired (h : Locked s) (hidle : s.idle) :
    s.locks.keys = ∅ ∧ s.users.keys = ∅ := by
  have hnone : s.calls.filterMap Call.uses = [] := by
    rw [List.filterMap_eq_nil_iff]
    intro c hc
    exact if_pos (hidle c hc)
  constructor
  · refine Finset.eq_empty_of_forall_notMem fun k hk => ?_
    obtain ⟨l, hl⟩ := mem_keys_iff.mp hk
    have hmem := h.used k l hl
    rw [hnone] at hmem
    cases hmem
  · refine h.counted.keys_eq_empty_iff.mpr ?_
    rw [hnone]
    rfl

end SparkDeck.Lifecycle
