import SparkDeck.Lib.Table
import SparkDeck.Pins.Snapshot

/-!
# A pin does not fail open

`Sees` is what the scan of a request knows of the rules behind it. It holds of the records as they are
while the request waits, as long as the steps are `Orderly`. `Asked` and `Awaits` say what a waiting
request may find when it goes on.

* **`pins_closed`**: in every run of `Orderly` steps a request is routed as the rules say, what it
  uses is fresh, and the tables keep nothing that has ended.
-/

namespace SparkDeck.Pins

open Transition Function

variable {C N X : Type*} [LinearOrder N] {s t : State C N X} {name id : N}
  {rule other : Rule N} {pre rest : List (Rule N)} {c : Scan N X} {st : Stored N X}
  {q : Request N X} {key : Target N} {used : List (Target N × Seen N X)} {x : Seen N X}

/-! ## The scan -/

/-- What a scan knows after the rules `pre`. -/
structure Sees (s : State C N X) (name : N) (pre : List (Rule N)) (c : Scan N X) : Prop where
  owners : ∀ id o, Assoc.get c.owners id = some o → s.stored id = o
  read : ∀ rule ∈ pre, rule.enabled → ∃ o, Assoc.get c.owners rule.deploymentId = some o
  looked : ∀ rule ∈ pre, Looked s c.observed name rule
  matched : ∀ rule, rule ∈ c.matched ↔ rule ∈ pre ∧ Owns s c.observed name rule
  fresh : ∀ x ∈ c.observed, Fresh s x.1 x.2.1
  seen : ∀ x ∈ c.observed, ∃ o, Assoc.get c.owners x.1.1 = some o

theorem sees_nil : Sees s name [] ⟨[], [], []⟩ where
  owners _ _ h := by cases h
  read _ h := absurd h List.not_mem_nil
  looked _ h := absurd h List.not_mem_nil
  matched _ := ⟨fun h => absurd h List.not_mem_nil, fun h => absurd h.1 List.not_mem_nil⟩
  fresh _ h := absurd h List.not_mem_nil
  seen _ h := absurd h List.not_mem_nil

theorem get_reads {o p : Option (Stored N X)} {d : N} (h : Assoc.get c.owners d = some p) :
    ∃ p', Assoc.get (c.reads id o).owners d = some p' := by
  by_cases hd : d = id
  · subst hd
    exact ⟨o, Assoc.get_set_self⟩
  · exact ⟨p, (Assoc.get_set_ne hd).trans h⟩

variable {o : Option (Stored N X)}

theorem Sees.reads (h : Sees s name pre c) (ho : s.stored id = o) :
    Sees s name pre (c.reads id o) :=
  { h with
    owners d p hp := by
      by_cases hd : d = id
      · subst hd
        exact ho.trans (Option.some.inj (Assoc.get_set_self.symm.trans hp))
      · exact h.owners d p ((Assoc.get_set_ne hd).symm.trans hp)
    read rule hr he := by
      obtain ⟨p, hp⟩ := h.read rule hr he
      exact get_reads hp
    seen x hx := by
      obtain ⟨p, hp⟩ := h.seen x hx
      exact get_reads hp }

/-- A rule that does not own the name. -/
theorem Sees.skip (h : Sees s name pre c)
    (hread : rule.enabled → ∃ o, Assoc.get c.owners rule.deploymentId = some o)
    (hlooked : Looked s c.observed name rule) (hno : ¬Owns s c.observed name rule) :
    Sees s name (pre ++ [rule]) c where
  owners := h.owners
  read := List.forall_mem_append.mpr ⟨h.read, List.forall_mem_singleton.mpr hread⟩
  looked := List.forall_mem_append.mpr ⟨h.looked, List.forall_mem_singleton.mpr hlooked⟩
  matched other := by
    rw [h.matched other, List.mem_append, List.mem_singleton]
    constructor
    · rintro ⟨ho, hown⟩
      exact ⟨Or.inl ho, hown⟩
    · rintro ⟨ho | rfl, hown⟩
      · exact ⟨ho, hown⟩
      · exact absurd hown hno
  fresh := h.fresh
  seen := h.seen

/-- A rule that owns the name. -/
theorem Sees.adds (h : Sees s name pre c)
    (hread : rule.enabled → ∃ o, Assoc.get c.owners rule.deploymentId = some o)
    (hlooked : Looked s c.observed name rule) (hyes : Owns s c.observed name rule) :
    Sees s name (pre ++ [rule]) (c.adds rule) where
  owners := h.owners
  read := List.forall_mem_append.mpr ⟨h.read, List.forall_mem_singleton.mpr hread⟩
  looked := List.forall_mem_append.mpr ⟨h.looked, List.forall_mem_singleton.mpr hlooked⟩
  matched other := by
    change other ∈ c.matched ++ [rule] ↔ other ∈ pre ++ [rule] ∧ Owns s c.observed name other
    rw [List.mem_append, List.mem_append, List.mem_singleton, h.matched other]
    constructor
    · rintro (⟨ho, hown⟩ | rfl)
      · exact ⟨Or.inl ho, hown⟩
      · exact ⟨Or.inr rfl, hyes⟩
    · rintro ⟨ho | ho, hown⟩
      · exact Or.inl ⟨ho, hown⟩
      · exact Or.inr ho
  fresh := h.fresh
  seen := h.seen

/-- A snapshot of a target decides no rule that was decided before. -/
theorem owns_set (hl : Looked s used name rule)
    (hold : ∀ y, Assoc.get used key = some y → y = x) :
    Owns s (Assoc.set used key x) name rule ↔ Owns s used name rule := by
  constructor
  · rintro ⟨he, st, hst, hown | ⟨hd, y, hy, hname⟩⟩
    · exact ⟨he, st, hst, Or.inl hown⟩
    · by_cases hown : name ∈ ownedModels st (s.linked rule.deploymentId) rule.deploymentId
      · exact ⟨he, st, hst, Or.inl hown⟩
      · obtain ⟨z, hz⟩ := hl he st hst hown hd
        refine ⟨he, st, hst, Or.inr ⟨hd, z, hz, ?_⟩⟩
        by_cases hk : rule.target = key
        · subst hk
          rw [hold z hz, Option.some.inj (Assoc.get_set_self.symm.trans hy)]
          exact hname
        · rw [Assoc.get_set_ne hk, hz] at hy
          exact Option.some.inj hy ▸ hname
  · rintro ⟨he, st, hst, hown | ⟨hd, y, hy, hname⟩⟩
    · exact ⟨he, st, hst, Or.inl hown⟩
    · refine ⟨he, st, hst, Or.inr ⟨hd, ?_⟩⟩
      by_cases hk : rule.target = key
      · subst hk
        exact ⟨x, Assoc.get_set_self, hold y hy ▸ hname⟩
      · exact ⟨y, (Assoc.get_set_ne hk).trans hy, hname⟩

theorem looked_set (hl : Looked s used name rule) : Looked s (Assoc.set used key x) name rule := by
  intro he st hst hown hd
  obtain ⟨y, hy⟩ := hl he st hst hown hd
  by_cases hk : rule.target = key
  · subst hk
    exact ⟨x, Assoc.get_set_self⟩
  · exact ⟨y, (Assoc.get_set_ne hk).trans hy⟩

theorem Sees.observe (h : Sees s name pre c) (hfresh : Fresh s key x.1)
    (hread : ∃ o, Assoc.get c.owners key.1 = some o)
    (hold : ∀ y, Assoc.get c.observed key = some y → y = x) :
    Sees s name pre { c with observed := Assoc.set c.observed key x } where
  owners := h.owners
  read := h.read
  looked rule hr := looked_set (h.looked rule hr)
  matched rule :=
    (h.matched rule).trans (and_congr_right fun hr => (owns_set (h.looked rule hr) hold).symm)
  fresh y hy := by
    rcases Assoc.mem_set hy with rfl | hy
    · exact hfresh
    · exact h.fresh y hy
  seen y hy := by
    rcases Assoc.mem_set hy with rfl | hy
    · exact hread
    · exact h.seen y hy

/-- The records that the scan has read stay as they are, and nothing that it has used expires. -/
theorem Sees.mono (h : Sees s name pre c)
    (hsame : ∀ d o, Assoc.get c.owners d = some o → t.stored d = s.stored d ∧ t.linked d = s.linked d)
    (hnow : ∀ x ∈ c.observed, t.now < x.2.1.expiry) : Sees t name pre c := by
  have hrule : ∀ rule ∈ pre, rule.enabled →
      t.stored rule.deploymentId = s.stored rule.deploymentId ∧
        t.linked rule.deploymentId = s.linked rule.deploymentId := by
    intro rule hr he
    obtain ⟨o, ho⟩ := h.read rule hr he
    exact hsame _ o ho
  refine ⟨fun d o ho => ?_, h.read, fun rule hr he => ?_, fun rule => ?_, fun x hx => ?_, h.seen⟩
  · rw [(hsame d o ho).1]
    exact h.owners d o ho
  · obtain ⟨hst, hlink⟩ := hrule rule hr he
    have hl := h.looked rule hr he
    unfold State.dirty at hl ⊢
    rw [hst, hlink]
    exact hl
  · refine (h.matched rule).trans (and_congr_right fun hr => and_congr_right fun he => ?_)
    obtain ⟨hst, hlink⟩ := hrule rule hr he
    unfold State.dirty
    rw [hst, hlink]
  · obtain ⟨o, ho⟩ := h.seen x hx
    obtain ⟨_, hst⟩ := h.fresh x hx
    refine ⟨hnow x hx, ?_⟩
    rw [(hsame _ o ho).1, (hsame _ o ho).2]
    exact hst

/-- The settings of the rule are dirty, and its snapshot tells. -/
theorem Sees.sees (h : Sees s name pre c) (he : rule.enabled)
    (hst : s.stored rule.deploymentId = some st)
    (hown : name ∉ ownedModels st (s.linked rule.deploymentId) rule.deploymentId)
    (hd : s.dirty rule.deploymentId) (hfresh : Fresh s rule.target x.1)
    (hread : ∃ o, Assoc.get c.owners rule.deploymentId = some o)
    (hold : ∀ y, Assoc.get c.observed rule.target = some y → y = x) :
    Sees s name (pre ++ [rule]) (c.sees s name rule st x) := by
  have hobs := h.observe hfresh hread hold
  have hlooked : Looked s (Assoc.set c.observed rule.target x) name rule :=
    fun _ _ _ _ _ => ⟨x, Assoc.get_set_self⟩
  unfold Scan.sees
  split
  case isTrue hname =>
    exact hobs.adds (fun _ => hread) hlooked
      ⟨he, st, hst, Or.inr ⟨hd, x, Assoc.get_set_self, hname⟩⟩
  case isFalse hname =>
    refine hobs.skip (fun _ => hread) hlooked ?_
    rintro ⟨_, st', hst', hown' | ⟨_, y, hy, hname'⟩⟩
    · cases hst.symm.trans hst'
      exact hown hown'
    · cases hst.symm.trans hst'
      cases Assoc.get_set_self.symm.trans hy
      exact hname hname'

/-! ## What a waiting request may find -/

/-- The refresh of a scan was created for what the scan has read, or that is what there is; and if it
has left a snapshot, it is of what the scan has read. -/
def Asked (s : State C N X) (rule : Rule N) (st : Stored N X) (view : Option (Linked N X)) (i : ℕ) :
    Prop :=
  ∃ x, s.tasks[i]? = some x ∧ x.key = rule.target ∧
    (x.live → x.signature = (st, view) ∨
      s.stored rule.deploymentId = some st ∧ s.linked rule.deploymentId = view) ∧
    (x.phase = .ended → ∀ e, Assoc.get s.cache rule.target = some e → e.row.isSome →
      e.signature = (st, view) ∧ s.stored rule.deploymentId = some st)

/-- If the refresh has left a snapshot, it is of the record as it is. -/
def Awaits (s : State C N X) (rule : Rule N) (i : ℕ) : Prop :=
  ∃ x, s.tasks[i]? = some x ∧ x.key = rule.target ∧
    (x.phase = .ended → ∀ e, Assoc.get s.cache rule.target = some e → e.row.isSome →
      s.stored rule.deploymentId = some e.signature.1)

structure Scanned (s : State C N X) (q : Request N X) (rule : Rule N) (rest : List (Rule N))
    (c : Scan N X) (st : Stored N X) (view : Option (Linked N X)) (i : ℕ) : Prop where
  exact : q.exact = none
  split : ∃ pre, q.rules = pre ++ rule :: rest ∧ Sees s q.name pre c
  enabled : rule.enabled
  own : q.name ∉ ownedModels st view rule.deploymentId
  dirty : ∃ l ∈ view, l.dirty
  unseen : Assoc.get c.observed rule.target = none
  owner : ∀ o, Assoc.get c.owners rule.deploymentId = some o → o = some st
  asked : Asked s rule st view i

def Good (s : State C N X) (q : Request N X) : Prop :=
  match q.stage with
  | .scans rule rest c st view i => Scanned s q rule rest c st view i
  | .pins rule _ i => Awaits s rule i
  | _ => True

/-- No refresh runs for a target whose last one has ended and is still waited for. -/
def Calm (s : State C N X) (q : Request N X) : Prop :=
  ∀ x, s.awaited q = some x → x.phase = .ended →
    ∀ (i : ℕ) (y : Refresh N X), s.tasks[i]? = some y → y.key = x.key → y.phase ≠ .running

/-- The tables. -/
structure Core (s : State C N X) : Prop where
  cache : s.cache.length ≤ 128
  refreshes : s.refreshes.length ≤ 128
  table : ∀ x ∈ s.refreshes, ∃ task, s.tasks[x.2]? = some task ∧ task.key = x.1 ∧ task.live
  live : ∀ (i : ℕ) (x : Refresh N X), s.tasks[i]? = some x → x.live →
    Assoc.get s.refreshes x.key = some i

structure Inv (s : State C N X) : Prop where
  core : Core s
  good : ∀ (r : ℕ) (q : Request N X), s.requests[r]? = some q → Good s q ∧ Calm s q

/-- The records and the time are the same, the tasks too, but for new ones, and the cache has lost
entries at most. -/
structure Joined (s t : State C N X) : Prop where
  stored : t.stored = s.stored
  linked : t.linked = s.linked
  now : t.now = s.now
  tasks : ∀ (i : ℕ) (x : Refresh N X), s.tasks[i]? = some x → t.tasks[i]? = some x
  created : ∀ (i : ℕ) (x : Refresh N X), t.tasks[i]? = some x → s.tasks[i]? = some x ∨ x.phase = .created
  cache : ∀ (k : Target N) (e : Entry N X), Assoc.get t.cache k = some e →
    Assoc.get s.cache k = some e

theorem Joined.refl : Joined s s :=
  ⟨rfl, rfl, rfl, fun _ _ h => h, fun _ _ h => Or.inl h, fun _ _ h => h⟩

theorem Sees.joined (h : Sees s name pre c) (hj : Joined s t) : Sees t name pre c :=
  h.mono (fun _ _ _ => ⟨congrFun hj.stored _, congrFun hj.linked _⟩)
    fun x hx => hj.now ▸ (h.fresh x hx).1

theorem Good.joined (h : Good s q) (hj : Joined s t) : Good t q := by
  unfold Good at h ⊢
  cases hst : q.stage with
  | scans rule rest c st view i =>
    rw [hst] at h
    obtain ⟨hexact, ⟨pre, hrules, hsees⟩, he, hown, hd, hunseen, howner, x, hx, hkey, hlive, hended⟩ := h
    refine ⟨hexact, ⟨pre, hrules, hsees.joined hj⟩, he, hown, hd, hunseen, howner, x,
      hj.tasks i x hx, hkey, ?_, ?_⟩
    · rw [hj.stored, hj.linked]
      exact hlive
    · rw [hj.stored]
      exact fun hp e hg => hended hp e (hj.cache _ _ hg)
  | pins rule st i =>
    rw [hst] at h
    obtain ⟨x, hx, hkey, hended⟩ := h
    refine ⟨x, hj.tasks i x hx, hkey, ?_⟩
    rw [hj.stored]
    exact fun hp e hg => hended hp e (hj.cache _ _ hg)
  | ordinary | sent rule e | rejected => exact trivial

omit [LinearOrder N] in
theorem awaited_eq_some {x : Refresh N X} :
    s.awaited q = some x ↔ ∃ i, q.task? = some i ∧ s.tasks[i]? = some x := by
  unfold State.awaited
  rw [Option.bind_eq_some_iff]

theorem Good.exists_task (h : Good s q) {i : ℕ} (hi : q.task? = some i) :
    ∃ x, s.tasks[i]? = some x := by
  unfold Good at h
  unfold Request.task? at hi
  cases hst : q.stage with
  | scans rule rest c st view j =>
    rw [hst] at h hi
    cases hi
    obtain ⟨x, hx, _⟩ := h.asked
    exact ⟨x, hx⟩
  | pins rule st j =>
    rw [hst] at h hi
    cases hi
    obtain ⟨x, hx, _⟩ := h
    exact ⟨x, hx⟩
  | ordinary | sent rule e | rejected =>
    rw [hst] at hi
    cases hi

theorem Calm.joined (h : Calm s q) (hg : Good s q) (hj : Joined s t) : Calm t q := by
  intro x hx hp i y hy hkey hrun
  obtain ⟨j, hq, hjx⟩ := awaited_eq_some.mp hx
  obtain ⟨x', hx'⟩ := hg.exists_task hq
  obtain rfl : x' = x := Option.some.inj ((hj.tasks j x' hx').symm.trans hjx)
  rcases hj.created i y hy with hy | hnew
  · exact h x' (awaited_eq_some.mpr ⟨j, hq, hx'⟩) hp i y hy hkey hrun
  · cases hnew.symm.trans hrun

/-! ## A request goes on -/

theorem join_spec {i : ℕ} (h : Core s) (hj : s.join key st = some (t, i)) :
    Core t ∧ Joined s t ∧ ∃ x, t.tasks[i]? = some x ∧ x.key = key ∧ x.live := by
  unfold State.join at hj
  split at hj
  · next j hget =>
    cases hj
    exact ⟨h, .refl, h.table _ (Assoc.mem_of_get hget)⟩
  · next hget =>
    obtain ⟨hfull, hj⟩ := Option.ite_none_left_eq_some.mp hj
    cases hj
    have hold : ∀ (j : ℕ) (x : Refresh N X), s.tasks[j]? = some x →
        (s.tasks ++ [⟨key, (st, s.linked key.1), .created⟩])[j]? = some x :=
      fun j x hx => Table.get_append hx
    have hcache : ∀ (k : Target N) (e : Entry N X),
        Assoc.get (if 128 ≤ s.cache.length then Assoc.pop s.cache else s.cache) k = some e →
          Assoc.get s.cache k = some e := by
      intro k e he
      split at he
      · exact Assoc.get_of_get_pop he
      · exact he
    refine ⟨⟨?_, ?_, ?_, ?_⟩, ⟨rfl, rfl, rfl, hold, ?_, hcache⟩, ?_⟩
    · dsimp only
      split
      · exact Assoc.length_pop_le.trans h.cache
      · exact h.cache
    · have hset := Assoc.length_set_le (l := s.refreshes) (k := key) (a := s.tasks.length)
      dsimp only
      omega
    · intro x hx
      rcases Assoc.mem_set hx with rfl | hx
      · exact ⟨_, Table.get_append_length, rfl, Or.inl rfl⟩
      · obtain ⟨task, htask, hkey, hlive⟩ := h.table x hx
        exact ⟨task, hold _ _ htask, hkey, hlive⟩
    · intro j x hx hlive
      rcases Table.append_cases hx with hx | ⟨rfl, rfl⟩
      · have hj := h.live j x hx hlive
        refine (Assoc.get_set_ne fun hk => ?_).trans hj
        rw [hk, hget] at hj
        cases hj
      · exact Assoc.get_set_self
    · intro j x hx
      rcases Table.append_cases hx with hx | ⟨rfl, rfl⟩
      · exact Or.inl hx
      · exact Or.inr rfl
    · exact ⟨_, Table.get_append_length, rfl, Or.inl rfl⟩

omit [LinearOrder N] in
theorem calm_of_live (h : ∀ x, s.awaited q = some x → x.live) : Calm s q := by
  intro x hx hp
  rcases h x hx with hl | hl
  · cases hp.symm.trans hl
  · cases hp.symm.trans hl

omit [LinearOrder N] in
theorem calm_of_task {i : ℕ} {x : Refresh N X} (hq : q.task? = some i) (hx : s.tasks[i]? = some x)
    (hlive : x.live) : Calm s q := by
  refine calm_of_live fun y hy => ?_
  obtain ⟨j, hj, hy⟩ := awaited_eq_some.mp hy
  cases hq.symm.trans hj
  cases hx.symm.trans hy
  exact hlive

omit [LinearOrder N] in
theorem calm_of_none (hq : q.task? = none) : Calm s q := by
  refine calm_of_live fun y hy => ?_
  obtain ⟨j, hj, _⟩ := awaited_eq_some.mp hy
  cases hq.symm.trans hj

/-- A request has gone on, from `q` in `s` to `p.2` in `p.1`. -/
structure Moved (s : State C N X) (q : Request N X) (p : State C N X × Request N X) : Prop where
  core : Core p.1
  joined : Joined s p.1
  good : Good p.1 p.2
  calm : Calm p.1 p.2
  name : p.2.name = q.name
  rules : p.2.rules = q.rules
  sent : ∀ rule e, p.2.stage = .sent rule e → Fresh s rule.target e

theorem moved_rejected (h : Core s) : Moved s q (s, q.reject) :=
  ⟨h, .refl, trivial, calm_of_none rfl, rfl, rfl, nofun⟩

variable (st q) in
/-- The pinned deployment has answered. -/
theorem answer_spec {e : Entry N X} (row : Row N) (h : Core s) (hfresh : Fresh s rule.target e) :
    Moved s q (s, s.answer q rule st e row) ∧ (s.answer q rule st e row).Toward rule ∧
      (s.answer q rule st e row).used = q.used := by
  unfold State.answer
  split
  case isTrue =>
    refine ⟨⟨h, .refl, trivial, calm_of_none rfl, rfl, rfl, fun rule' e' hs => ?_⟩,
      Or.inr (Or.inr ⟨e, rfl⟩), rfl⟩
    cases hs
    exact hfresh
  case isFalse => exact ⟨⟨h, .refl, trivial, calm_of_none rfl, rfl, rfl, nofun⟩, Or.inl rfl, rfl⟩

theorem Decided.joined (h : Decided s q) (hj : Joined s t) : Decided t q := by
  unfold Decided Fresh Looked Owns State.dirty at h ⊢
  rw [hj.stored, hj.linked, hj.now]
  exact h

theorem least_mem (rule : Rule N) (rest : List (Rule N)) : least rule rest ∈ rule :: rest := by
  unfold least
  induction rest generalizing rule with
  | nil => exact List.mem_cons_self
  | cons other rest ih =>
    rw [List.foldl_cons]
    split
    case isTrue => exact List.mem_cons_of_mem rule (ih other)
    case isFalse =>
      rcases List.mem_cons.mp (ih rule) with he | hm
      · rw [he]
        exact List.mem_cons_self
      · exact List.mem_cons_of_mem rule (List.mem_cons_of_mem other hm)

/-- A request has gone on after its await. -/
structure Resumed (s : State C N X) (q : Request N X) (p : State C N X × Request N X) : Prop where
  moved : Moved s q p
  decided : q.Scanning → ¬p.2.Scanning → Decided p.1 p.2
  toward : ¬q.Scanning → ∃ rule st i, q.stage = .pins rule st i ∧ p.2.Toward rule

theorem resumed_scan (h : Core s) (hexact : q.exact = none) (hscanning : q.Scanning) :
    Resumed s q (s, q.reject) := by
  refine ⟨moved_rejected h, fun _ _ => ?_, fun hno => absurd hscanning hno⟩
  have hp : q.reject.exact = none := hexact
  unfold Decided
  rw [hp]
  exact Or.inl rfl

theorem resumed_pin {p : Request N X} {i : ℕ} (hmoved : Moved s q (s, p)) (htoward : p.Toward rule)
    (hst : q.stage = .pins rule st i) : Resumed s q (s, p) := by
  refine ⟨hmoved, ?_, fun _ => ⟨rule, st, i, hst, htoward⟩⟩
  rintro ⟨_, _, _, _, _, _, hscan⟩
  cases hst.symm.trans hscan

/-! ## What the other steps keep -/

section

variable {x : Refresh N X} {i : ℕ} {w : Phase}

/-- A live refresh goes on, or ends. -/
theorem Good.task (h : Good s q) (hcalm : Calm s q) (hi : s.tasks[i]? = some x) (hlive : x.live)
    (htasks : t.tasks = s.tasks.set i { x with phase := w }) (hstored : t.stored = s.stored)
    (hlinked : t.linked = s.linked) (hnow : t.now = s.now)
    (hcache : ∀ k e, Assoc.get t.cache k = some e →
      Assoc.get s.cache k = some e ∨ k = x.key ∧ x.phase = .running)
    (hended : w = .ended → ∀ e, Assoc.get t.cache x.key = some e → e.row.isSome →
      e.signature = x.signature ∧ s.Unchanged x) : Good t q := by
  -- the entry that another refresh of the target leaves is not there while one is waited for
  have hkeep : ∀ (j : ℕ) (y : Refresh N X), q.task? = some j → s.tasks[j]? = some y →
      y.phase = .ended → ∀ e, Assoc.get t.cache y.key = some e → Assoc.get s.cache y.key = some e := by
    intro j y hq hy hp e he
    refine (hcache _ e he).resolve_right fun ⟨hk, hrun⟩ => ?_
    exact hcalm y (awaited_eq_some.mpr ⟨j, hq, hy⟩) hp i x hi hk.symm hrun
  unfold Good at h ⊢
  cases hst : q.stage with
  | scans rule rest c st view j =>
    rw [hst] at h
    obtain ⟨hexact, ⟨pre, hrules, hsees⟩, he, hown, hd, hunseen, howner, y, hy, hkey, hl, hen⟩ := h
    have hq : q.task? = some j := by
      unfold Request.task?
      rw [hst]
    have hsees' : Sees t q.name pre c :=
      hsees.mono (fun _ _ _ => ⟨congrFun hstored _, congrFun hlinked _⟩)
        fun x hx => hnow ▸ (hsees.fresh x hx).1
    refine ⟨hexact, ⟨pre, hrules, hsees'⟩, he, hown, hd, hunseen, howner, ?_⟩
    unfold Asked
    rw [hstored, hlinked, htasks]
    by_cases hji : j = i
    · subst hji
      cases hy.symm.trans hi
      refine ⟨_, Table.get_set_self hi, hkey, fun _ => hl hlive, fun hp e hg hrow => ?_⟩
      obtain ⟨hsig, st', hst', hsame⟩ := hended hp e (hkey ▸ hg) hrow
      rw [hkey] at hst' hsame
      rcases hl hlive with hview | ⟨hcur, hview⟩
      · have hst0 : st' = st := (Prod.mk.inj (hsame.trans hview)).1
        exact ⟨hsig.trans hview, hst0 ▸ hst'⟩
      · have hst0 : st' = st := Option.some.inj (hst'.symm.trans hcur)
        refine ⟨hsig.trans (hsame.symm.trans ?_), hcur⟩
        rw [hst0]
        exact congrArg (Prod.mk st) hview
    · refine ⟨y, Table.get_set_ne hy hji, hkey, hl, fun hp e hg hrow => hen hp e ?_ hrow⟩
      rw [← hkey] at hg ⊢
      exact hkeep j y hq hy hp e hg
  | pins rule st j =>
    rw [hst] at h
    obtain ⟨y, hy, hkey, hen⟩ := h
    have hq : q.task? = some j := by
      unfold Request.task?
      rw [hst]
    unfold Awaits
    rw [hstored, htasks]
    by_cases hji : j = i
    · subst hji
      cases hy.symm.trans hi
      refine ⟨_, Table.get_set_self hi, hkey, fun hp e hg hrow => ?_⟩
      obtain ⟨hsig, st', hst', hsame⟩ := hended hp e (hkey ▸ hg) hrow
      rw [hkey] at hst'
      rw [hsig, ← hsame]
      exact hst'
    · refine ⟨y, Table.get_set_ne hy hji, hkey, fun hp e hg hrow => hen hp e ?_ hrow⟩
      rw [← hkey] at hg ⊢
      exact hkeep j y hq hy hp e hg
  | ordinary | sent rule e | rejected => exact trivial

theorem Calm.task (h : Calm s q) (hcore : Core s) (hi : s.tasks[i]? = some x) (hlive : x.live)
    (htasks : t.tasks = s.tasks.set i { x with phase := w })
    (hrun : w = .running → ∀ y, s.awaited q = some y → y.phase = .ended → y.key ≠ x.key) :
    Calm t q := by
  intro y hy hp k z hz hkey hzr
  obtain ⟨j, hq, hj⟩ := awaited_eq_some.mp hy
  rw [htasks] at hj hz
  rcases Table.set_cases hj with ⟨rfl, rfl⟩ | ⟨hji, hj⟩
  · rcases Table.set_cases hz with ⟨rfl, rfl⟩ | ⟨hki, hz⟩
    · cases hp.symm.trans hzr
    · -- two live refreshes of one target
      have hk := hcore.live k z hz (Or.inr hzr)
      rw [hkey, hcore.live j x hi hlive] at hk
      exact hki (Option.some.inj hk).symm
  · have haw : s.awaited q = some y := awaited_eq_some.mpr ⟨j, hq, hj⟩
    rcases Table.set_cases hz with ⟨rfl, rfl⟩ | ⟨_, hz⟩
    · exact hrun hzr y haw hp hkey.symm
    · exact h y haw hp k z hz hkey hzr

/-- A refresh leaves the table. -/
theorem Core.drops (h : Core s) (hi : s.tasks[i]? = some x) (hlive : x.live)
    (hph : ¬({ x with phase := w } : Refresh N X).live) {cache : List (Target N × Entry N X)}
    (hcache : cache.length ≤ 128) :
    Core { s with
      tasks := s.tasks.set i { x with phase := w }
      refreshes := Assoc.erase s.refreshes x.key
      cache := cache } where
  cache := hcache
  refreshes := (List.length_filter_le _ _).trans h.refreshes
  table y hy := by
    obtain ⟨hy, hne⟩ := Assoc.mem_erase.mp hy
    obtain ⟨task, htask, hkey, hl⟩ := h.table y hy
    refine ⟨task, Table.get_set_ne htask ?_, hkey, hl⟩
    intro hji
    rw [hji, hi] at htask
    exact hne (hkey.symm.trans (congrArg Refresh.key (Option.some.inj htask)).symm)
  live j y hy hl := by
    rcases Table.set_cases hy with ⟨_, rfl⟩ | ⟨hji, hy⟩
    · exact absurd hl hph
    · have hj := h.live j y hy hl
      refine (Assoc.get_erase_ne fun hk => ?_).trans hj
      rw [hk, h.live i x hi hlive] at hj
      exact hji (Option.some.inj hj).symm

theorem Core.begins (h : Core s) (hi : s.tasks[i]? = some x) (hlive : x.live) :
    Core { s with tasks := s.tasks.set i { x with phase := .running } } where
  cache := h.cache
  refreshes := h.refreshes
  table y hy := by
    obtain ⟨task, htask, hkey, hl⟩ := h.table y hy
    by_cases hji : y.2 = i
    · have hx : task = x := Option.some.inj (htask.symm.trans (hji ▸ hi))
      refine ⟨{ x with phase := .running }, ?_, hx ▸ hkey, Or.inr rfl⟩
      rw [hji]
      exact Table.get_set_self hi
    · exact ⟨task, Table.get_set_ne htask hji, hkey, hl⟩
  live j y hy hl := by
    rcases Table.set_cases hy with ⟨rfl, rfl⟩ | ⟨_, hy⟩
    · exact h.live j x hi hlive
    · exact h.live j y hy hl

theorem due_eq_false (h : s.due key = false) (hq : q ∈ s.requests) (hx : s.awaited q = some x)
    (hp : x.phase = .ended) : x.key ≠ key := by
  intro hk
  have hany := List.any_eq_false.mp h q hq
  rw [hx] at hany
  exact hany (decide_eq_true ⟨hp, hk⟩)

/-- A refresh ends, with the snapshot `e`. -/
theorem Inv.finish (h : Inv s) (hi : s.tasks[i]? = some x) (hrun : x.phase = .running)
    {e : Entry N X} (he : e.row.isSome → e.signature = x.signature ∧ s.Unchanged x) :
    Inv (s.finish i x e) := by
  have hlive : x.live := Or.inr hrun
  refine ⟨h.core.drops hi hlive (w := .ended) (by rintro (hp | hp) <;> cases hp)
    (Assoc.length_put (by decide) h.core.cache), fun r q hq => ?_⟩
  obtain ⟨hgood, hcalm⟩ := h.good r q hq
  refine ⟨hgood.task hcalm hi hlive rfl rfl rfl rfl (fun k e' hg => ?_) fun _ e' hg hrow => ?_,
    hcalm.task h.core hi hlive rfl nofun⟩
  · by_cases hk : k = x.key
    · exact Or.inr ⟨hk, hrun⟩
    · exact Or.inl (Assoc.get_of_get_put hk hg)
  · obtain rfl : e = e' := Option.some.inj (Assoc.get_put_self.symm.trans hg)
    exact he hrow

end

theorem Good.setStored (h : Good s q) (hc : q.stage.LetsStored s id) :
    Good { s with stored := update s.stored id o } q := by
  unfold Good at h ⊢
  cases hst : q.stage with
  | scans rule rest c st view j =>
    rw [hst] at h hc
    obtain ⟨hexact, ⟨pre, hrules, hsees⟩, he, hown, hd, hunseen, howner, y, hy, hkey, hl, hen⟩ := h
    obtain ⟨hid, hhead⟩ := hc
    have hne : ∀ d p, Assoc.get c.owners d = some p → d ≠ id := by
      rintro d p hp rfl
      cases hid.symm.trans hp
    refine ⟨hexact, ⟨pre, hrules, hsees.mono (fun d p hp => ⟨?_, rfl⟩) fun x hx =>
      (hsees.fresh x hx).1⟩, he, hown, hd, hunseen, howner, y, hy, hkey, fun hlive => ?_,
      fun hp e hg hrow => ?_⟩
    · exact update_of_ne (hne d p hp) _ _
    · by_cases hdid : rule.deploymentId = id
      · exact Or.inl ((hhead hdid).2 y hy hlive)
      · refine (hl hlive).imp_right fun hcur => ⟨?_, hcur.2⟩
        exact (update_of_ne hdid _ _).trans hcur.1
    · obtain ⟨hsig, hcur⟩ := hen hp e hg hrow
      refine ⟨hsig, (update_of_ne (fun hdid => ?_) _ _).trans hcur⟩
      exact (hhead hdid).1 ⟨y, hy, hp, e, hg, hrow⟩
  | pins rule st j =>
    rw [hst] at h hc
    obtain ⟨y, hy, hkey, hen⟩ := h
    refine ⟨y, hy, hkey, fun hp e hg hrow => ?_⟩
    refine (update_of_ne (fun hdid => ?_) _ _).trans (hen hp e hg hrow)
    exact hc hdid ⟨y, hy, hp, e, hg, hrow⟩
  | ordinary | sent rule e | rejected => exact trivial

theorem Good.setLinked (h : Good s q) {o : Option (Linked N X)} (hc : q.stage.LetsLinked s id) :
    Good { s with linked := update s.linked id o } q := by
  unfold Good at h ⊢
  cases hst : q.stage with
  | scans rule rest c st view j =>
    rw [hst] at h hc
    obtain ⟨hexact, ⟨pre, hrules, hsees⟩, he, hown, hd, hunseen, howner, y, hy, hkey, hl, hen⟩ := h
    obtain ⟨hid, hhead⟩ := hc
    have hne : ∀ d p, Assoc.get c.owners d = some p → d ≠ id := by
      rintro d p hp rfl
      cases hid.symm.trans hp
    refine ⟨hexact, ⟨pre, hrules, hsees.mono (fun d p hp => ⟨rfl, ?_⟩) fun x hx =>
      (hsees.fresh x hx).1⟩, he, hown, hd, hunseen, howner, y, hy, hkey, fun hlive => ?_, hen⟩
    · exact update_of_ne (hne d p hp) _ _
    · by_cases hdid : rule.deploymentId = id
      · exact Or.inl (hhead hdid y hy hlive)
      · refine (hl hlive).imp_right fun hcur => ⟨hcur.1, ?_⟩
        exact (update_of_ne hdid _ _).trans hcur.2
  | pins rule st j =>
    rw [hst] at h
    exact h
  | ordinary | sent rule e | rejected => exact trivial

theorem Good.clock (h : Good s q) {now : ℚ} (hc : q.stage.LetsTime now) :
    Good { s with now := now } q := by
  unfold Good at h ⊢
  cases hst : q.stage with
  | scans rule rest c st view j =>
    rw [hst] at h hc
    obtain ⟨hexact, ⟨pre, hrules, hsees⟩, he, hown, hd, hunseen, howner, hasked⟩ := h
    exact ⟨hexact, ⟨pre, hrules, hsees.mono (fun _ _ _ => ⟨rfl, rfl⟩) hc⟩, he, hown, hd, hunseen,
      howner, hasked⟩
  | pins rule st j =>
    rw [hst] at h
    exact h
  | ordinary | sent rule e | rejected => exact trivial

/-! ## The invariant -/

theorem Joined.requests (h : Joined s t) (l : List (Request N X)) :
    Joined s { t with requests := l } :=
  { h with }

variable {p : State C N X × Request N X}

theorem Inv.moved (h : Inv s) (hm : Moved s q p) {l : List (Request N X)}
    (hl : ∀ (r : ℕ) (q' : Request N X), l[r]? = some q' → q' = p.2 ∨ s.requests[r]? = some q') :
    Inv { p.1 with requests := l } := by
  have hjoined : Joined p.1 { p.1 with requests := l } := Joined.refl.requests l
  refine ⟨⟨hm.core.cache, hm.core.refreshes, hm.core.table, hm.core.live⟩, fun r q' hq' => ?_⟩
  rcases hl r q' hq' with rfl | hq'
  · exact ⟨hm.good.joined hjoined, hm.calm⟩
  · obtain ⟨hgood, hcalm⟩ := h.good r q' hq'
    exact ⟨hgood.joined (hm.joined.requests l), hcalm.joined hgood (hm.joined.requests l)⟩

/-- A step that moves no request. -/
theorem routed_of_requests (h : t.requests = s.requests) : Routed s t where
  decided r q hq hno hp := by
    rw [h] at hq
    exact absurd (hp q hq) hno
  kept r p q hp hq _ := by
    rw [h] at hq
    exact Or.inl (Option.some.inj (hq.symm.trans hp))
  sent r q rule e hq hst hp := by
    rw [h] at hq
    exact absurd hst (hp q hq)

theorem fresh_joined {e : Entry N X} (h : Fresh s key e) (hj : Joined s t) : Fresh t key e := by
  unfold Fresh at h ⊢
  rw [hj.stored, hj.linked, hj.now]
  exact h

/-- The request at `r` has gone on. -/
theorem routed_of_moved {r : ℕ} {l : List (Request N X)} (hm : Moved s q p)
    (hnew : l[r]? = some p.2)
    (hold : ∀ (i : ℕ) (q' : Request N X), i ≠ r → l[i]? = some q' → s.requests[i]? = some q')
    (hdecided : (∀ q', s.requests[r]? = some q' → q'.Scanning) → ¬p.2.Scanning → Decided p.1 p.2)
    (htoward : ∀ q', s.requests[r]? = some q' → ¬q'.Scanning → ∃ rule st i, q'.stage = .pins rule st i ∧ p.2.Toward rule) :
    Routed s { p.1 with requests := l } where
  decided i q' hq' hno hp := by
    by_cases hir : i = r
    · subst hir
      cases hnew.symm.trans hq'
      exact hdecided hp hno
    · exact absurd (hp q' (hold i q' hir hq')) hno
  kept i q' q'' hq' hq'' hno := by
    by_cases hir : i = r
    · subst hir
      cases hnew.symm.trans hq''
      exact Or.inr (htoward q' hq' hno)
    · exact Or.inl (Option.some.inj ((hold i q'' hir hq'').symm.trans hq'))
  sent i q' rule e hq' hst hp := by
    by_cases hir : i = r
    · subst hir
      cases hnew.symm.trans hq'
      exact fresh_joined (hm.sent rule e hst) (hm.joined.requests l)
    · exact absurd hst (hp q' (hold i q' hir hq'))

theorem inv_init (rules : C → List (Rule N)) (stored : N → Option (Stored N X))
    (linked : N → Option (Linked N X)) (now : ℚ) : Inv (init rules stored linked now) where
  core := ⟨Nat.zero_le _, Nat.zero_le _, fun _ hx => absurd hx List.not_mem_nil, nofun⟩
  good _ _ hq := by cases hq

theorem Inv.environment (h : Inv s) (hcore : Core t) (hrequests : t.requests = s.requests)
    (hgood : ∀ q ∈ s.requests, Good s q → Calm s q → Good t q ∧ Calm t q) : Inv t ∧ Routed s t := by
  refine ⟨⟨hcore, fun r q hq => ?_⟩, routed_of_requests hrequests⟩
  rw [hrequests] at hq
  exact hgood q (List.mem_of_getElem? hq) (h.good r q hq).1 (h.good r q hq).2

variable [DecidableEq X]

/-! ## The end of a scan -/

/-- The rule that a scan waits for, as it was when it began to wait. -/
structure Heads (s : State C N X) (name : N) (rule : Rule N) (c : Scan N X) (st : Stored N X) :
    Prop where
  enabled : rule.enabled
  stored : s.stored rule.deploymentId = some st
  own : name ∉ ownedModels st (s.linked rule.deploymentId) rule.deploymentId
  dirty : s.dirty rule.deploymentId
  unseen : Assoc.get c.observed rule.target = none
  owner : ∀ o, Assoc.get c.owners rule.deploymentId = some o → o = some st

def FoundGood (s : State C N X) (name : N) (rules : List (Rule N)) : Found N X → Prop
  | .ends c => Sees s name rules c
  | .rejects => True
  | .waits rule rest c st =>
    ∃ pre, rules = pre ++ rule :: rest ∧ Sees s name pre c ∧ Heads s name rule c st

theorem look_found {e : Entry N X} {row : Row N} (h : s.look key st = .found e row) :
    Assoc.get s.cache key = some e ∧ s.now < e.expiry ∧ e.signature = (st, s.linked key.1) ∧
      e.row = some row := by
  unfold State.look at h
  split at h
  · next e' he =>
    split at h
    case isTrue hc =>
      split at h
      · next row' hrow =>
        cases h
        exact ⟨he, hc.1, hc.2, hrow⟩
      · cases h
    case isFalse => cases h
  · cases h

theorem scan_spec {rules : List (Rule N)} (h : Sees s name pre c) (hall : rules = pre ++ rest) :
    FoundGood s name rules (scan s name rest c) := by
  induction rest generalizing pre c with
  | nil =>
    rw [hall, List.append_nil]
    exact h
  | cons rule rest ih =>
    have hnext : rules = (pre ++ [rule]) ++ rest := by rw [hall, List.append_assoc]; rfl
    unfold scan
    split
    case isFalse he =>
      exact ih (h.skip (fun h' => absurd h' he) (fun h' => absurd h' he) fun h' => he h'.1) hnext
    case isTrue he =>
      -- what is read of the record is what the store has
      have howner : c.owner s rule.deploymentId = s.stored rule.deploymentId := by
        unfold Scan.owner
        cases ho : Assoc.get c.owners rule.deploymentId with
        | none => rfl
        | some o => exact (h.owners _ o ho).symm
      split
      · next ho =>
        have hst : s.stored rule.deploymentId = none := howner.symm.trans ho
        refine ih ((h.reads hst).skip (fun _ => ⟨none, Assoc.get_set_self⟩) ?_ ?_) hnext
        · intro _ st' hst'
          cases hst.symm.trans hst'
        · rintro ⟨_, st', hst', _⟩
          cases hst.symm.trans hst'
      · next st ho =>
        have hst : s.stored rule.deploymentId = some st := howner.symm.trans ho
        have hreads := h.reads hst
        have hread : ∃ o, Assoc.get (c.reads rule.deploymentId (some st)).owners
            rule.deploymentId = some o := ⟨some st, Assoc.get_set_self⟩
        split
        case isTrue hown =>
          refine ih (hreads.adds (fun _ => hread) ?_ ⟨he, st, hst, Or.inl hown⟩) hnext
          intro _ st' hst' hno
          cases hst.symm.trans hst'
          exact absurd hown hno
        case isFalse hown =>
          split
          case isFalse hd =>
            refine ih (hreads.skip (fun _ => hread) (fun _ _ _ _ hd' => absurd hd' hd) ?_) hnext
            rintro ⟨_, st', hst', hown' | ⟨hd', _⟩⟩
            · cases hst.symm.trans hst'
              exact hown hown'
            · exact hd hd'
          case isTrue hd =>
            split
            · next x hx =>
              exact ih (hreads.sees he hst hown hd (h.fresh _ (Assoc.mem_of_get hx)) hread
                fun y hy => Option.some.inj (hy.symm.trans hx)) hnext
            · next hx =>
              split
              · next e row hlook =>
                obtain ⟨_, hexp, hsig, _⟩ := look_found hlook
                exact ih (hreads.sees he hst hown hd ⟨hexp, st, hst, hsig⟩ hread
                  fun y hy => by cases hx.symm.trans hy) hnext
              · exact trivial
              · refine ⟨pre, hall, h, he, hst, hown, hd, hx, fun o ho' => ?_⟩
                rw [← h.owners _ o ho', hst]

/-! ## What a request does -/

variable (rule q) in
theorem pin_spec (h : Core s) :
    Moved s q (s.pin q rule) ∧ (s.pin q rule).2.Toward rule ∧ (s.pin q rule).2.used = q.used := by
  have hreject : Moved s q (s, q.reject) ∧ q.reject.Toward rule ∧ q.reject.used = q.used :=
    ⟨moved_rejected h, Or.inl rfl, rfl⟩
  unfold State.pin
  split
  · exact hreject
  · next st hst =>
    split
    · next e row hlook =>
      obtain ⟨_, hexp, hsig, _⟩ := look_found hlook
      exact answer_spec st q row h ⟨hexp, st, hst, hsig⟩
    · exact hreject
    · split
      · next t i hj =>
        obtain ⟨hcore, hjoined, x, hx, hkey, hlive⟩ := join_spec h hj
        refine ⟨⟨hcore, hjoined, ⟨x, hx, hkey, fun hp => ?_⟩, calm_of_task rfl hx hlive, rfl, rfl,
          nofun⟩, Or.inr (Or.inl ⟨st, i, rfl⟩), rfl⟩
        rcases hlive with hl | hl
        · cases hl.symm.trans hp
        · cases hl.symm.trans hp
      · exact hreject

theorem choose_spec (h : Core s) (hsees : Sees s q.name q.rules c) (hexact : q.exact = none) :
    Moved s q (s.choose q c) ∧ Decided (s.choose q c).1 (s.choose q c).2 := by
  -- the request as it is decided
  have hdecided : ∀ p : Request N X, p.name = q.name → p.rules = q.rules → p.used = c.observed →
      (p.stage = .rejected ∨ (p.stage = .ordinary ∧ c.matched = []) ∨
        ∃ rule ∈ c.matched, p.Toward rule ∧ ∀ other ∈ c.matched, other.target = rule.target) →
      Decided s p := by
    intro p hname hrules hused hstage
    have hp : p.exact = none := by
      unfold Request.exact at hexact ⊢
      rw [hname, hrules]
      exact hexact
    unfold Decided
    rw [hp]
    rcases hstage with hr | ⟨hord, hnil⟩ | ⟨rule, hrule, htoward, hall⟩
    · exact Or.inl hr
    · rw [hused, hname, hrules]
      refine Or.inr ⟨hsees.fresh, hsees.looked, Or.inl ⟨hord, fun rule hr hown => ?_⟩⟩
      have hmem := (hsees.matched rule).mpr ⟨hr, hown⟩
      rw [hnil] at hmem
      cases hmem
    · rw [hused, hname, hrules]
      obtain ⟨hmem, hown⟩ := (hsees.matched rule).mp hrule
      refine Or.inr ⟨hsees.fresh, hsees.looked, Or.inr ⟨rule, hmem, hown, htoward, ?_⟩⟩
      exact fun other ho hown' => hall other ((hsees.matched other).mpr ⟨ho, hown'⟩)
  unfold State.choose
  split
  · next hnil =>
    exact ⟨⟨h, .refl, trivial, calm_of_none rfl, rfl, rfl, nofun⟩,
      hdecided _ rfl rfl rfl (Or.inr (Or.inl ⟨rfl, hnil⟩))⟩
  · next rule rest hcons =>
    split
    case isTrue hall =>
      have hmem := least_mem rule rest
      have htargets : ∀ other ∈ rule :: rest, other.target = rule.target := fun other ho =>
        (List.mem_cons.mp ho).elim (fun he => he ▸ rfl) (hall other)
      obtain ⟨hmoved, htoward, hused⟩ :=
        pin_spec (least rule rest) { q with used := c.observed } h
      refine ⟨{ hmoved with }, Decided.joined ?_ hmoved.joined⟩
      refine hdecided _ hmoved.name hmoved.rules hused (Or.inr (Or.inr
        ⟨least rule rest, hcons ▸ hmem, htoward, fun other ho => ?_⟩))
      rw [htargets _ hmem]
      exact htargets other (hcons ▸ ho)
    case isFalse =>
      exact ⟨⟨h, .refl, trivial, calm_of_none rfl, rfl, rfl, nofun⟩,
        hdecided _ rfl rfl rfl (Or.inl rfl)⟩

/-- The loop of a scan has come to its await, or to its end. -/
theorem goOn_spec {f : Found N X} (h : Core s) (hf : FoundGood s q.name q.rules f)
    (hexact : q.exact = none) :
    Moved s q (s.goOn q f) ∧ (¬(s.goOn q f).2.Scanning → Decided (s.goOn q f).1 (s.goOn q f).2) := by
  have hreject : Moved s q (s, q.reject) ∧ (¬q.reject.Scanning → Decided s q.reject) := by
    refine ⟨moved_rejected h, fun _ => ?_⟩
    have hp : q.reject.exact = none := hexact
    unfold Decided
    rw [hp]
    exact Or.inl rfl
  cases f with
  | ends c =>
    obtain ⟨hmoved, hdecided⟩ := choose_spec h hf hexact
    exact ⟨hmoved, fun _ => hdecided⟩
  | rejects => exact hreject
  | waits rule rest c st =>
    obtain ⟨pre, hrules, hsees, hheads⟩ := hf
    unfold State.goOn
    dsimp only
    split
    · next t i hj =>
      obtain ⟨hcore, hjoined, x, hx, hkey, hlive⟩ := join_spec h hj
      refine ⟨⟨hcore, hjoined, ?_, calm_of_task rfl hx hlive, rfl, rfl, nofun⟩,
        fun hno => absurd ⟨rule, rest, c, st, _, i, rfl⟩ hno⟩
      refine ⟨hexact, ⟨pre, hrules, hsees.joined hjoined⟩, hheads.enabled, hheads.own, hheads.dirty,
        hheads.unseen, hheads.owner, x, hx, hkey, fun _ => Or.inr ?_, fun hp => ?_⟩
      · rw [hjoined.stored, hjoined.linked]
        exact ⟨hheads.stored, rfl⟩
      · rcases hlive with hl | hl
        · cases hl.symm.trans hp
        · cases hl.symm.trans hp
    · exact hreject

theorem start_spec (h : Core s) :
    Moved s q (s.start q) ∧ (¬(s.start q).2.Scanning → Decided (s.start q).1 (s.start q).2) := by
  unfold State.start
  split
  · next rule hexact =>
    split
    case isTrue he =>
      obtain ⟨hmoved, htoward, _⟩ := pin_spec rule q h
      refine ⟨hmoved, fun _ => ?_⟩
      have hp : (s.pin q rule).2.exact = some rule := by
        unfold Request.exact at hexact ⊢
        rw [hmoved.name, hmoved.rules]
        exact hexact
      unfold Decided
      rw [hp]
      dsimp only
      rw [if_pos he]
      exact htoward
    case isFalse he =>
      refine ⟨⟨h, .refl, trivial, calm_of_none rfl, rfl, rfl, nofun⟩, fun _ => ?_⟩
      have hp : ({ q with stage := .ordinary } : Request N X).exact = some rule := hexact
      unfold Decided
      rw [hp]
      dsimp only
      rw [if_neg he]
  · next hexact => exact goOn_spec h (scan_spec sees_nil rfl) hexact

theorem resume_spec {x : Refresh N X} (h : Core s) (hgood : Good s q) (hx : s.awaited q = some x)
    (hr : s.resume q x = some p) : Resumed s q p := by
  obtain ⟨i, hq, hi⟩ := awaited_eq_some.mp hx
  unfold Good at hgood
  cases hst : q.stage with
  | scans rule rest c st view j =>
    rw [hst] at hgood
    obtain ⟨hexact, ⟨pre, hrules, hsees⟩, he, hown, hd, hunseen, _, y, hy, hkey, _, hended⟩ := hgood
    have hscanning : q.Scanning := ⟨rule, rest, c, st, view, j, hst⟩
    have hj : q.task? = some j := by
      unfold Request.task?
      rw [hst]
    cases hq.symm.trans hj
    cases hi.symm.trans hy
    unfold State.resume at hr
    split at hr
    · cases hr
    · cases hr
    · cases hr
      exact resumed_scan h hexact hscanning
    · next hp =>
      rw [hst] at hr
      dsimp only at hr
      split at hr
      · next e row hlook =>
        obtain ⟨hget, hexp, hsig, hrow⟩ := look_found hlook
        obtain ⟨hview, hstored⟩ := hended hp e hget (by rw [hrow]; rfl)
        have hlinked : s.linked rule.deploymentId = view :=
          (Prod.mk.inj (hsig.symm.trans hview)).2
        cases hr
        have hsees' := (hsees.reads hstored).sees he hstored (hlinked ▸ hown)
          (by unfold State.dirty; rw [hlinked]; exact hd) (x := (e, row)) ⟨hexp, st, hstored, hsig⟩
          ⟨some st, Assoc.get_set_self⟩ fun z hz => by cases hunseen.symm.trans hz
        have hall : q.rules = (pre ++ [rule]) ++ rest := by
          rw [hrules, List.append_assoc]
          rfl
        obtain ⟨hmoved, hdecided⟩ := goOn_spec h (scan_spec hsees' hall) hexact
        exact ⟨hmoved, fun _ => hdecided, fun hno => absurd hscanning hno⟩
      · cases hr
        exact resumed_scan h hexact hscanning
  | pins rule st j =>
    rw [hst] at hgood
    obtain ⟨y, hy, hkey, hended⟩ := hgood
    have hj : q.task? = some j := by
      unfold Request.task?
      rw [hst]
    cases hq.symm.trans hj
    cases hi.symm.trans hy
    unfold State.resume at hr
    split at hr
    · cases hr
    · cases hr
    · cases hr
      exact resumed_pin (moved_rejected h) (Or.inl rfl) hst
    · next hp =>
      rw [hst] at hr
      dsimp only at hr
      split at hr
      · next e row hlook =>
        obtain ⟨hget, hexp, hsig, hrow⟩ := look_found hlook
        have hstored := hended hp e hget (by rw [hrow]; rfl)
        cases hr
        rw [hsig] at hstored
        obtain ⟨hmoved, htoward, _⟩ := answer_spec st q row h ⟨hexp, st, hstored, hsig⟩
        exact resumed_pin hmoved htoward hst
      · cases hr
        exact resumed_pin (moved_rejected h) (Or.inl rfl) hst
  | ordinary | sent rule e | rejected =>
    unfold Request.task? at hq
    rw [hst] at hq
    cases hq

/-! ## Runs -/

variable [DecidableEq C]

theorem Inv.step {a : Act C N X} (h : Inv s) (hc : Orderly s a) (hs : Pins.step s a = some t) :
    Inv t ∧ Routed s t := by
  cases a with
  | request caller name =>
    cases hs
    obtain ⟨hm, hdecided⟩ := start_spec (q := ⟨name, s.rules caller, .rejected, []⟩) h.core
    have hnone : s.requests[s.requests.length]? = none := List.getElem?_eq_none (Nat.le_refl _)
    refine ⟨h.moved hm fun r q' hq' => ?_, routed_of_moved hm Table.get_append_length ?_
      (fun _ => hdecided) fun q' hq' => ?_⟩
    · rcases Table.append_cases hq' with hq' | ⟨_, rfl⟩
      · exact Or.inr hq'
      · exact Or.inl rfl
    · intro i q' hi hq'
      exact (Table.append_cases hq').resolve_right fun he => hi he.1
    · cases hnone.symm.trans hq'
  | resume r =>
    dsimp only [Pins.step] at hs
    split at hs
    · next q hq =>
      split at hs
      · next x hx =>
        obtain ⟨p, hp, rfl⟩ := Option.map_eq_some_iff.mp hs
        obtain ⟨hm, hdecided, htoward⟩ := resume_spec h.core (h.good r q hq).1 hx hp
        refine ⟨h.moved hm fun i q' hq' => ?_, routed_of_moved hm (Table.get_set_self hq) ?_
          (fun hscan => hdecided (hscan q hq)) fun q' hq' hno => ?_⟩
        · rcases Table.set_cases hq' with ⟨_, rfl⟩ | ⟨_, hq'⟩
          · exact Or.inl rfl
          · exact Or.inr hq'
        · intro i q' hi hq'
          exact ((Table.set_cases hq').resolve_left fun he => hi he.1).2
        · cases hq.symm.trans hq'
          exact htoward hno
      · cases hs
    · cases hs
  | abandon r =>
    dsimp only [Pins.step] at hs
    split at hs
    · next q hq =>
      obtain ⟨hwaits, rfl⟩ := guard_some hs
      have hm : Moved s q (s, q.reject) := moved_rejected h.core
      refine ⟨h.moved hm fun i q' hq' => ?_, routed_of_moved hm (Table.get_set_self hq) ?_
        (fun hscan _ => ?_) fun q' hq' hno => ?_⟩
      · rcases Table.set_cases hq' with ⟨_, rfl⟩ | ⟨_, hq'⟩
        · exact Or.inl rfl
        · exact Or.inr hq'
      · intro i q' hi hq'
        exact ((Table.set_cases hq').resolve_left fun he => hi he.1).2
      · obtain ⟨rule, rest, c, st, view, j, hst⟩ := hscan q hq
        have hgood := (h.good r q hq).1
        unfold Good at hgood
        rw [hst] at hgood
        exact (resumed_scan h.core hgood.exact ⟨rule, rest, c, st, view, j, hst⟩).decided
          ⟨rule, rest, c, st, view, j, hst⟩ (by rintro ⟨_, _, _, _, _, _, hr⟩; cases hr)
      · cases hq.symm.trans hq'
        cases hst : q.stage with
        | scans rule rest c st view j => exact absurd ⟨rule, rest, c, st, view, j, hst⟩ hno
        | pins rule st j => exact ⟨rule, st, j, rfl, Or.inl rfl⟩
        | ordinary | sent _ _ | rejected =>
          unfold Request.task? at hwaits
          rw [hst] at hwaits
          cases hwaits
    · cases hs
  | begins i =>
    dsimp only [Pins.step] at hs
    split at hs
    · next x hi =>
      obtain ⟨hfree, rfl⟩ := guard_some hs
      have hlive : x.live := Or.inl hfree.1
      refine h.environment (h.core.begins hi hlive) rfl fun q hq hgood hcalm => ⟨?_, ?_⟩
      · exact hgood.task hcalm hi hlive rfl rfl rfl rfl (fun _ _ he => Or.inl he) nofun
      · exact hcalm.task h.core hi hlive rfl fun _ y hy hp => due_eq_false hfree.2 hq hy hp
    · cases hs
  | observed i row =>
    dsimp only [Pins.step] at hs
    split at hs
    · next x hi =>
      obtain ⟨hrun, rfl⟩ := guard_some hs
      refine ⟨h.finish hi hrun ?_, routed_of_requests rfl⟩
      split
      · next hsame => exact fun _ => ⟨rfl, hsame⟩
      · exact nofun
    · cases hs
  | fails i =>
    dsimp only [Pins.step] at hs
    split at hs
    · next x hi =>
      obtain ⟨hrun, rfl⟩ := guard_some hs
      exact ⟨h.finish hi hrun nofun, routed_of_requests rfl⟩
    · cases hs
  | cancel i =>
    dsimp only [Pins.step] at hs
    split at hs
    · next x hi =>
      split at hs
      · next hcreated => exact absurd hcreated (hc x hi)
      · next hrun =>
        cases hs
        have hlive : x.live := Or.inr hrun
        refine h.environment (h.core.drops hi hlive (w := .cancelled)
          (by rintro (hp | hp) <;> cases hp) h.core.cache) rfl fun q hq hgood hcalm => ⟨?_, ?_⟩
        · exact hgood.task hcalm hi hlive rfl rfl rfl rfl (fun _ _ he => Or.inl he) nofun
        · exact hcalm.task h.core hi hlive rfl nofun
      · cases hs
    · cases hs
  | setRules caller rules =>
    cases hs
    refine h.environment ⟨h.core.cache, h.core.refreshes, h.core.table, h.core.live⟩ rfl ?_
    intro q _ hgood hcalm
    exact ⟨hgood.joined ⟨rfl, rfl, rfl, fun _ _ hx => hx, fun _ _ hx => Or.inl hx,
      fun _ _ hx => hx⟩, hcalm⟩
  | setStored id o =>
    cases hs
    refine h.environment ⟨h.core.cache, h.core.refreshes, h.core.table, h.core.live⟩ rfl ?_
    exact fun q hq hgood hcalm => ⟨hgood.setStored (hc q hq), hcalm⟩
  | setLinked id o =>
    cases hs
    refine h.environment ⟨h.core.cache, h.core.refreshes, h.core.table, h.core.live⟩ rfl ?_
    exact fun q hq hgood hcalm => ⟨hgood.setLinked (hc q hq), hcalm⟩
  | clock now =>
    dsimp only [Pins.step] at hs
    obtain ⟨_, rfl⟩ := guard_some hs
    refine h.environment ⟨h.core.cache, h.core.refreshes, h.core.table, h.core.live⟩ rfl ?_
    exact fun q hq hgood hcalm => ⟨hgood.clock (hc q hq), hcalm⟩

theorem inv_of_reach {rules : C → List (Rule N)} {stored : N → Option (Stored N X)}
    {linked : N → Option (Linked N X)} {now : ℚ}
    (hr : Reach Pins.step Orderly (init rules stored linked now) s) : Inv s :=
  hr.invariant (inv_init rules stored linked now) fun _ _ _ h hc hs => (h.step hc hs).1

omit [DecidableEq X] [DecidableEq C] in
theorem Inv.tables (h : Inv s) : Tables s where
  cache := h.core.cache
  refreshes := h.core.refreshes
  table := h.core.table
  waits q hq i hi := by
    obtain ⟨r, hr⟩ := List.getElem?_of_mem hq
    obtain ⟨x, hx⟩ := (h.good r q hr).1.exists_task hi
    exact ⟨x, hx, h.core.live i x hx⟩

/-- In every run of `Orderly` steps each request is routed as the rules of its caller say, and by
fresh snapshots; and the tables are bounded, and hold no refresh that has ended. -/
theorem pins_closed (rules : C → List (Rule N)) (stored : N → Option (Stored N X))
    (linked : N → Option (Linked N X)) (now : ℚ) (s : State C N X)
    (hr : Reach Pins.step Orderly (init rules stored linked now) s) :
    Tables s ∧ ∀ (a : Act C N X) (t : State C N X), Orderly s a → Pins.step s a = some t →
      Routed s t :=
  ⟨(inv_of_reach hr).tables, fun _ _ hc hs => ((inv_of_reach hr).step hc hs).2⟩

/-! ## Five runs -/

instance decidableAnswered (s : State C N X) (rule : Rule N) (i : ℕ) : Decidable (Answered s rule i) :=
  inferInstanceAs (Decidable (∃ x ∈ s.tasks[i]?, x.phase = .ended ∧
    ∃ e ∈ Assoc.get s.cache rule.target, e.row.isSome))

instance decidableLetsStored (s : State C N X) (id : N) :
    (st : Stage N X) → Decidable (st.LetsStored s id)
  | .scans rule _ c st view i =>
    inferInstanceAs (Decidable (Assoc.get c.owners id = none ∧
      (rule.deploymentId = id → ¬Answered s rule i ∧
        ∀ x ∈ s.tasks[i]?, x.live → x.signature = (st, view))))
  | .pins rule _ i => inferInstanceAs (Decidable (rule.deploymentId = id → ¬Answered s rule i))
  | .ordinary => isTrue trivial
  | .sent _ _ => isTrue trivial
  | .rejected => isTrue trivial

instance decidableLetsLinked (s : State C N X) (id : N) :
    (st : Stage N X) → Decidable (st.LetsLinked s id)
  | .scans rule _ c st view i =>
    inferInstanceAs (Decidable (Assoc.get c.owners id = none ∧
      (rule.deploymentId = id → ∀ x ∈ s.tasks[i]?, x.live → x.signature = (st, view))))
  | .pins _ _ _ => isTrue trivial
  | .ordinary => isTrue trivial
  | .sent _ _ => isTrue trivial
  | .rejected => isTrue trivial

instance decidableLetsTime (now : ℚ) : (st : Stage N X) → Decidable (st.LetsTime now)
  | .scans _ _ c _ _ _ => inferInstanceAs (Decidable (∀ x ∈ c.observed, now < x.2.1.expiry))
  | .pins _ _ _ => isTrue trivial
  | .ordinary => isTrue trivial
  | .sent _ _ => isTrue trivial
  | .rejected => isTrue trivial

instance decidableOrderly (s : State C N X) : (a : Act C N X) → Decidable (Orderly s a)
  | .setStored id _ => inferInstanceAs (Decidable (∀ q ∈ s.requests, q.stage.LetsStored s id))
  | .setLinked id _ => inferInstanceAs (Decidable (∀ q ∈ s.requests, q.stage.LetsLinked s id))
  | .clock now => inferInstanceAs (Decidable (∀ q ∈ s.requests, q.stage.LetsTime now))
  | .cancel i => inferInstanceAs (Decidable (∀ x ∈ s.tasks[i]?, x.phase ≠ .created))
  | .request _ _ => isTrue trivial
  | .resume _ => isTrue trivial
  | .abandon _ => isTrue trivial
  | .begins _ => isTrue trivial
  | .observed _ _ => isTrue trivial
  | .fails _ => isTrue trivial
  | .setRules _ _ => isTrue trivial

abbrev Site := State Unit ℕ ℕ

def ruleFor (name id : ℕ) : Rule ℕ := ⟨name, true, id, none, [id]⟩

/-- A deployment with the alias `name`. -/
def record (name : ℕ) : Stored ℕ ℕ := ⟨some name, [], true, none, 0⟩

/-- Deployment 3 serves the model 100; the settings of 2 and 4 are dirty. -/
def site (rules : List (Rule ℕ)) : Site :=
  init (fun _ => rules) (fun id => some (record (10 * id)))
    (fun id => some ⟨id, [if id = 3 then 100 else 10 * id + 1], id = 2 ∨ id = 4, 0⟩) 0

def Stage.isOrdinary : Stage ℕ ℕ → Bool
  | ordinary => true
  | _ => false

def Stage.isScans : Stage ℕ ℕ → Bool
  | scans _ _ _ _ _ _ => true
  | _ => false

/-- The entry that a request has been sent by. -/
def Stage.entry? : Stage ℕ ℕ → Option (Rule ℕ × Entry ℕ ℕ)
  | sent rule e => some (rule, e)
  | _ => none

/-- A dirty deployment is pinned, and still serves the name; meanwhile another one changes. -/
def dirtyPinned : List (Act Unit ℕ ℕ) :=
  [.request () 100, .begins 0, .setStored 3 none, .observed 0 ⟨[100], true⟩]

def sendsZero (s : Site) : Bool :=
  (step s (.resume 0)).any fun t => t.requests[0]?.any fun q => q.stage.entry?.isSome

theorem pins_closed_dirty :
    ∃ s t : Site, step s (.resume 0) = some t ∧ sendsZero s = true ∧ Tables s ∧ Routed s t := by
  have hrun : (replay step Orderly (site [ruleFor 20 2]) dirtyPinned).any sendsZero = true := by
    decide +kernel
  obtain ⟨s, hr, hs⟩ := reach_any hrun
  obtain ⟨t, ht, _⟩ := (Option.any_eq_true _ _).mp hs
  obtain ⟨htables, hrouted⟩ := pins_closed _ _ _ _ s hr
  exact ⟨s, t, ht, hs, htables, hrouted (.resume 0) t trivial ht⟩

/-- Some enabled rule owns the name 100. -/
def pinned (s : Site) : Bool :=
  (s.rules ()).any fun rule =>
    rule.enabled && (s.stored rule.deploymentId).any fun st =>
      decide (100 ∈ ownedModels st (s.linked rule.deploymentId) rule.deploymentId)

/-- While the scan waits for 2, the model goes from 3, which is still to be read, to 1, which has
been. -/
def renamed : List (Act Unit ℕ ℕ) :=
  [.request () 100, .setLinked 1 (some ⟨1, [100], false, 0⟩), .setLinked 3 (some ⟨3, [31], false, 0⟩),
    .begins 0, .observed 0 ⟨[21], true⟩]

/-- The next step ends the scan of the request in ordinary routing. -/
def endsOrdinary (ok : Site → Request ℕ ℕ → Bool) (s : Site) : Bool :=
  (s.requests[0]?.any fun q => q.stage.isScans) &&
    (step s (.resume 0)).any fun t =>
      t.requests[0]?.any fun q => q.stage.isOrdinary && q.exact.isNone && ok t q

theorem decided_ordinary {t : Site} {q : Request ℕ ℕ} (h : Decided t q)
    (hst : q.stage.isOrdinary) (hexact : q.exact.isNone) :
    (∀ x ∈ q.used, Fresh t x.1 x.2.1) ∧ ∀ rule ∈ q.rules, ¬Owns t q.used q.name rule := by
  have hord : q.stage = .ordinary := by
    cases hs : q.stage with
    | ordinary => rfl
    | scans _ _ _ _ _ _ | pins _ _ _ | sent _ _ | rejected =>
      rw [hs] at hst
      cases hst
  unfold Decided at h
  rw [Option.isNone_iff_eq_none.mp hexact] at h
  rcases h with hr | ⟨hfresh, _, ⟨_, hno⟩ | ⟨rule, _, _, htoward, _⟩⟩
  · cases hord.symm.trans hr
  · exact ⟨hfresh, hno⟩
  · rcases htoward with ht | ⟨_, _, ht⟩ | ⟨_, ht⟩
    · cases hord.symm.trans ht
    · cases hord.symm.trans ht
    · cases hord.symm.trans ht

/-- If the scan had been decided as the rules say, the test would fail. -/
theorem not_routed_of_endsOrdinary {ok : Site → Request ℕ ℕ → Bool} {s : Site}
    (h : endsOrdinary ok s)
    (hok : ∀ (t : Site) (q : Request ℕ ℕ), ok t q →
      ¬((∀ x ∈ q.used, Fresh t x.1 x.2.1) ∧ ∀ rule ∈ q.rules, ¬Owns t q.used q.name rule)) :
    ∃ (t : Site) (q : Request ℕ ℕ), step s (.resume 0) = some t ∧ t.requests[0]? = some q ∧
      q.stage.isOrdinary ∧ ok t q ∧ ¬Routed s t := by
  obtain ⟨hscans, hany⟩ := (Bool.and_eq_true _ _).mp h
  obtain ⟨t, ht, hany⟩ := (Option.any_eq_true _ _).mp hany
  obtain ⟨q, hq, hall⟩ := (Option.any_eq_true _ _).mp hany
  simp only [Bool.and_eq_true] at hall
  obtain ⟨⟨hord, hexact⟩, htest⟩ := hall
  refine ⟨t, q, ht, hq, hord, htest, fun hrouted => hok t q htest ?_⟩
  refine decided_ordinary (hrouted.decided 0 q hq ?_ fun p hp => ?_) hord hexact
  · rintro ⟨_, _, _, _, _, _, hst⟩
    rw [hst] at hord
    cases hord
  · rw [hp] at hscans
    have hst : p.stage.isScans := hscans
    cases hs : p.stage with
    | scans rule rest c st view i => exact ⟨rule, rest, c, st, view, i, hs⟩
    | pins _ _ _ | ordinary | sent _ _ | rejected =>
      rw [hs] at hst
      cases hst

/-- An enabled rule owns the name when the request is decided. -/
def owned (t : Site) (q : Request ℕ ℕ) : Bool :=
  decide (q.name = 100) && q.rules.any fun rule =>
    rule.enabled && (t.stored rule.deploymentId).any fun st =>
      decide (100 ∈ ownedModels st (t.linked rule.deploymentId) rule.deploymentId)

theorem not_closed_of_owned (t : Site) (q : Request ℕ ℕ) (h : owned t q) :
    ¬((∀ x ∈ q.used, Fresh t x.1 x.2.1) ∧ ∀ rule ∈ q.rules, ¬Owns t q.used q.name rule) := by
  obtain ⟨hname, hany⟩ := (Bool.and_eq_true _ _).mp h
  obtain ⟨rule, hrule, htest⟩ := List.any_eq_true.mp hany
  obtain ⟨he, hst⟩ := (Bool.and_eq_true _ _).mp htest
  obtain ⟨st, hst, hmem⟩ := (Option.any_eq_true _ _).mp hst
  rintro ⟨_, hno⟩
  refine hno rule hrule ⟨he, st, hst, Or.inl ?_⟩
  rw [of_decide_eq_true hname]
  exact of_decide_eq_true hmem

/-- The snapshot for 2 expires while the scan waits for that for 4. -/
def expires : List (Act Unit ℕ ℕ) :=
  [.request () 100, .begins 0, .observed 0 ⟨[21], true⟩, .resume 0, .begins 1, .clock 5,
    .observed 1 ⟨[41], true⟩]

def outdated (t : Site) (q : Request ℕ ℕ) : Bool :=
  q.used.any fun x => decide (x.2.1.expiry ≤ t.now)

theorem not_closed_of_outdated (t : Site) (q : Request ℕ ℕ) (h : outdated t q) :
    ¬((∀ x ∈ q.used, Fresh t x.1 x.2.1) ∧ ∀ rule ∈ q.rules, ¬Owns t q.used q.name rule) := by
  obtain ⟨x, hx, hle⟩ := List.any_eq_true.mp h
  rintro ⟨hfresh, _⟩
  exact absurd (hfresh x hx).1 (not_lt.mpr (of_decide_eq_true hle))

/-- The record changes after the refresh has ended, and before the request goes on. -/
def overtaken : List (Act Unit ℕ ℕ) :=
  [.request () 20, .begins 0, .observed 0 ⟨[20], true⟩, .setStored 2 (some ⟨some 20, [], true, none, 1⟩)]

/-- The next step sends the request by a snapshot of another record. -/
def sendsStale (s : Site) : Bool :=
  (s.requests[0]?.any fun q => q.stage.entry?.isNone) &&
    (step s (.resume 0)).any fun t =>
      t.requests[0]?.any fun q => q.stage.entry?.any fun x =>
        decide (t.stored x.1.target.1 ≠ some x.2.signature.1)

theorem not_routed_of_sendsStale {s : Site} (h : sendsStale s) :
    ∃ t : Site, step s (.resume 0) = some t ∧ ¬Routed s t := by
  obtain ⟨hbefore, hany⟩ := (Bool.and_eq_true _ _).mp h
  obtain ⟨t, ht, hany⟩ := (Option.any_eq_true _ _).mp hany
  obtain ⟨q, hq, hany⟩ := (Option.any_eq_true _ _).mp hany
  obtain ⟨x, hx, hne⟩ := (Option.any_eq_true _ _).mp hany
  refine ⟨t, ht, fun hrouted => of_decide_eq_true hne ?_⟩
  cases hst : q.stage with
  | sent rule e =>
    rw [hst] at hx
    cases hx
    obtain ⟨_, st, hstored, hsig⟩ := hrouted.sent 0 q rule e hq hst fun p hp hps => by
      rw [hp] at hbefore
      have hnone : p.stage.entry?.isNone := hbefore
      rw [hps] at hnone
      cases hnone
    rw [hstored, hsig]
  | scans _ _ _ _ _ _ | pins _ _ _ | ordinary | rejected =>
    rw [hst] at hx
    cases hx

/-- The table holds a refresh that is cancelled. -/
def holdsCancelled (s : Site) : Bool :=
  s.refreshes.any fun x => s.tasks[x.2]?.any fun task => decide (task.phase = .cancelled)

theorem not_tables_of_holdsCancelled {s : Site} (h : holdsCancelled s) : ¬Tables s := by
  obtain ⟨x, hx, hany⟩ := List.any_eq_true.mp h
  obtain ⟨task, htask, hp⟩ := (Option.any_eq_true _ _).mp hany
  intro htables
  obtain ⟨task', htask', _, hlive⟩ := htables.table x hx
  cases htask.symm.trans htask'
  have hphase := of_decide_eq_true hp
  rcases hlive with hl | hl
  · cases hphase.symm.trans hl
  · cases hphase.symm.trans hl

/-- In the first run an enabled rule owns the name in every state, and the request is routed as any
other. -/
theorem pins_open :
    (∃ (s t : Site) (q : Request ℕ ℕ),
      Reach step (fun s _ => pinned s = true) (site [ruleFor 10 1, ruleFor 20 2, ruleFor 30 3]) s ∧
        pinned s = true ∧ step s (.resume 0) = some t ∧ t.requests[0]? = some q ∧
          q.stage.isOrdinary = true ∧ owned t q = true ∧ ¬Routed s t) ∧
      (∃ s t : Site, Reach step Free (site [ruleFor 20 2, ruleFor 40 4]) s ∧
        step s (.resume 0) = some t ∧ ¬Routed s t) ∧
      (∃ s t : Site, Reach step Free (site [ruleFor 20 2]) s ∧
        step s (.resume 0) = some t ∧ ¬Routed s t) ∧
      ∃ s : Site, Reach step Free (site [ruleFor 20 2]) s ∧ ¬Tables s := by
  refine ⟨?_, ?_, ?_, ?_⟩
  · have hrun : (replay step (fun s _ => pinned s = true)
        (site [ruleFor 10 1, ruleFor 20 2, ruleFor 30 3]) renamed).any
          (fun s => pinned s && endsOrdinary owned s) = true := by decide +kernel
    obtain ⟨s, hr, hs⟩ := reach_any hrun
    obtain ⟨hpinned, hends⟩ := (Bool.and_eq_true _ _).mp hs
    obtain ⟨t, q, ht, hq, hord, hown, hno⟩ := not_routed_of_endsOrdinary hends not_closed_of_owned
    exact ⟨s, t, q, hr, hpinned, ht, hq, hord, hown, hno⟩
  · have hrun : (replay step Free (site [ruleFor 20 2, ruleFor 40 4]) expires).any
        (endsOrdinary outdated) = true := by decide +kernel
    obtain ⟨s, hr, hs⟩ := reach_any hrun
    obtain ⟨t, _, ht, _, _, _, hno⟩ := not_routed_of_endsOrdinary hs not_closed_of_outdated
    exact ⟨s, t, hr, ht, hno⟩
  · have hrun : (replay step Free (site [ruleFor 20 2]) overtaken).any sendsStale = true := by
      decide +kernel
    obtain ⟨s, hr, hs⟩ := reach_any hrun
    obtain ⟨t, ht, hno⟩ := not_routed_of_sendsStale hs
    exact ⟨s, t, hr, ht, hno⟩
  · have hrun : (replay step Free (site [ruleFor 20 2]) [.request () 100, .cancel 0]).any
        holdsCancelled = true := by decide +kernel
    obtain ⟨s, hr, hs⟩ := reach_any hrun
    exact ⟨s, hr, not_tables_of_holdsCancelled hs⟩

end SparkDeck.Pins
