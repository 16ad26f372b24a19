import SparkDeck.Lib.Table
import SparkDeck.Lib.Transition

/-!
# The cached routing snapshot

Model of `cached_state`, `invalidate_state_cache`, `_invalidate_state_if_lifecycle_changed`,
`_ensure_state_refresh`, `_collect_state` and `_forget_state` (`manager.py:25175-25286`).

* A collection waits for its inventories and reads the deployments after the last `await` of
  `get_state`, so it reads, ends and is put into the cache in one step. What it reads beside the
  deployments is left out.
* A change and the call that follows it are two steps: the source also waits between them. `saved`
  is what the deployments were at the last such call.
* The age of a snapshot is part of the call, since it depends on the time only.

`snapshot_recent` is about every run: a snapshot that a call gets, or that is left in the cache, has
read the deployments after every change that was saved, or with the lifecycle state that was saved.
`undone_before_saved` is why the second case is there.
-/

namespace SparkDeck.StateCache

open Transition

variable {V R : Type}

/-- The values of `node_id`, `desired_state` and `status`. -/
structure Member (V : Type) where
  nodeId : V
  desiredState : V
  status : V
  deriving DecidableEq

/-- `rest` is what no fingerprint covers; a member that is no dict is `none`. -/
structure Deployment (V R : Type) where
  id : V
  desiredState : V
  status : V
  members : List (Option (Member V))
  rest : R

/-- `self.deployments`; what is no dict is `none`. -/
abbrev Deployments (V R : Type) := List (Option (Deployment V R))

abbrev Fingerprint (V : Type) := List (V × V × V × List (Member V))

/-- `_state_fingerprint` -/
def fingerprint (deployments : Deployments V R) : Fingerprint V :=
  (deployments.filterMap id).map fun d =>
    (d.id, d.desiredState, d.status, d.members.filterMap id)

/-- What a collection has read, and how many lifecycle changes there were before. -/
structure Snapshot (V R : Type) where
  deployments : Deployments V R
  changes : ℕ

/-- `_collect_state` -/
inductive Stage (V R : Type)
  | created
  | running (before : Fingerprint V)
  | done (result : Option (Snapshot V R))

def Stage.isDone : Stage V R → Bool
  | done _ => true
  | _ => false

structure Collection (V R : Type) where
  generation : ℕ
  stage : Stage V R

/-- A call of `cached_state` that waits, and what was saved when it started. -/
structure Waiter (V R : Type) where
  task : ℕ
  saved : Deployments V R
  settled : ℕ

structure State (V R : Type) where
  deployments : Deployments V R
  /-- The lifecycle changes so far, and those before the last save. -/
  changes : ℕ
  settled : ℕ
  saved : Deployments V R
  generation : ℕ
  /-- `_state_cache` -/
  cache : Option (Snapshot V R × Fingerprint V)
  /-- `_state_inflight` -/
  inflight : Option ℕ
  collections : List (Collection V R)
  waiting : List (Waiter V R)

def init (deployments : Deployments V R) : State V R :=
  ⟨deployments, 0, 0, deployments, 0, none, none, [], []⟩

/-- Against `ttl_seconds` and `stale_ttl_seconds`. -/
inductive Age
  | fresh
  | stale
  | old

inductive Event (V R : Type)
  /-- Anything is done to the saved deployments. -/
  | change (deployments : Deployments V R)
  /-- `_invalidate_state_if_lifecycle_changed`, the end of `_save_deployments` -/
  | save
  /-- `invalidate_state_cache` -/
  | invalidate
  /-- `cached_state` -/
  | call (age : Age)
  | start (task : ℕ)
  /-- `get_state` returns, or raises. -/
  | finish (task : ℕ) (ok : Bool)
  /-- `_forget_state` -/
  | forget (task : ℕ)

namespace State

/-- `invalidate_state_cache` -/
def invalidate (s : State V R) : State V R :=
  { s with generation := s.generation + 1, cache := none, inflight := none }

def settle (s : State V R) : State V R :=
  { s with settled := s.changes, saved := s.deployments }

/-- The task in flight, unless it is done. -/
def live (s : State V R) : Option ℕ := do
  let i ← s.inflight
  let c ← s.collections[i]?
  if c.stage.isDone then none else some i

/-- `_ensure_state_refresh` -/
def ensure (s : State V R) : State V R × ℕ :=
  match s.live with
  | some i => (s, i)
  | none =>
    ({ s with collections := s.collections ++ [⟨s.generation, .created⟩]
              inflight := some s.collections.length }, s.collections.length)

/-- What `cached_state` returns without waiting. -/
def answer (s : State V R) : Age → Option (Snapshot V R)
  | .old => none
  | _ => s.cache.map Prod.fst

end State

def step [DecidableEq V] (s : State V R) : Event V R → Option (State V R)
  | .change d =>
    let moved := if fingerprint d = fingerprint s.deployments then 0 else 1
    some { s with deployments := d, changes := s.changes + moved }
  | .save =>
    match s.cache with
    | some (_, before) =>
      some (if fingerprint s.deployments ≠ before then s.settle.invalidate else s.settle)
    | none => some s.settle
  | .invalidate => some s.settle.invalidate
  | .call age =>
    match s.answer age, age with
    | some _, .stale => some s.ensure.1
    | some _, _ => some s
    | none, _ =>
      let (s', i) := s.ensure
      some { s' with waiting := ⟨i, s'.saved, s'.settled⟩ :: s'.waiting }
  | .start i =>
    match s.collections[i]? with
    | some ⟨g, .created⟩ =>
      some { s with
        collections := s.collections.set i ⟨g, .running (fingerprint s.deployments)⟩ }
    | _ => none
  | .finish i ok =>
    match s.collections[i]? with
    | some ⟨g, .running before⟩ =>
      let result := if ok then some ⟨s.deployments, s.changes⟩ else none
      let s' := { s with collections := s.collections.set i ⟨g, .done result⟩ }
      match result with
      | some x =>
        if g = s.generation ∧ fingerprint s.deployments = before then
          some { s' with cache := some (x, before) }
        else some s'
      | none => some s'
    | _ => none
  | .forget i =>
    match s.collections[i]? with
    | some ⟨_, .done _⟩ =>
      some { s with inflight := if s.inflight = some i then none else s.inflight }
    | _ => none

/-- The collection goes on, for the generation `g`. -/
def State.Open (s : State V R) (i g : ℕ) : Prop :=
  ∃ c, s.collections[i]? = some c ∧ c.stage.isDone = false ∧ c.generation = g

/-! ## Nothing older than a saved change -/

/-- Read after the changes that were saved, or with the lifecycle state that was saved. -/
def Snapshot.Recent (x : Snapshot V R) (saved : Deployments V R) (settled : ℕ) : Prop :=
  settled ≤ x.changes ∨ fingerprint x.deployments = fingerprint saved

/-- What the cache and the calls have to offer. -/
structure Sound [DecidableEq V] (s : State V R) : Prop where
  cached : ∀ x before, s.cache = some (x, before) → x.Recent s.saved s.settled
  /-- A call that starts now and returns at once. -/
  answered : ∀ age x, s.answer age = some x → x.Recent s.saved s.settled
  waiting : ∀ w ∈ s.waiting, ∀ g x, s.collections[w.task]? = some ⟨g, .done (some x)⟩ →
    x.Recent w.saved w.settled
  /-- One collection a generation. -/
  shared : ∀ i j g, s.Open i g → s.Open j g → i = j
  failed : ∀ i t, step s (.finish i false) = some t → t.cache = s.cache
  /-- A call that has to wait waits for the collection of its generation, which goes on. -/
  again : ∀ age t, s.answer age = none → step s (.call age) = some t →
    ∃ w, t.waiting = w :: s.waiting ∧ t.Open w.task s.generation

/-- The collections that go on. -/
structure Shared (s : State V R) : Prop where
  old : ∀ i g, s.Open i g → g ≤ s.generation
  own : ∀ i, s.Open i s.generation → s.inflight = some i
  joined : ∀ i g, s.inflight = some i → s.Open i g → g = s.generation
  single : ∀ i j g, s.Open i g → s.Open j g → i = j

/-- What was read. -/
structure Fresh (s : State V R) : Prop where
  settled : s.settled ≤ s.changes
  cached : ∀ x before, s.cache = some (x, before) →
    before = fingerprint x.deployments ∧ x.Recent s.saved s.settled
  waiting : ∀ w ∈ s.waiting, w.settled ≤ s.changes ∧
    ∀ g x, s.collections[w.task]? = some ⟨g, .done (some x)⟩ → x.Recent w.saved w.settled

variable {s t : State V R} {i g : ℕ} {stage : Stage V R}

theorem live_spec (h : s.live = some i) : s.inflight = some i ∧ ∃ g, s.Open i g := by
  simp only [State.live, Option.bind_eq_bind, Option.bind_eq_some_iff] at h
  obtain ⟨j, hj, c, hc, h⟩ := h
  obtain ⟨hd, h⟩ := Option.ite_none_left_eq_some.mp h
  cases h
  exact ⟨hj, c.generation, c, hc, by simpa using hd, rfl⟩

/-- The task that a call waits for goes on. -/
theorem ensure_open (s : State V R) :
    s.ensure.1.inflight = some s.ensure.2 ∧ ∃ g, s.ensure.1.Open s.ensure.2 g := by
  unfold State.ensure
  cases hl : s.live with
  | some i => exact live_spec hl
  | none => exact ⟨rfl, _, _, Table.get_append_length, rfl, rfl⟩

/-! ### The collections -/

theorem Shared.invalidate (h : Shared s) : Shared s.invalidate where
  old i g hi := Nat.le_succ_of_le (h.old i g hi)
  own i hi := absurd (h.old i _ hi) (Nat.not_succ_le_self _)
  joined _ _ hin := by cases hin
  single := h.single

/-- One collection goes on, or ends. -/
theorem Shared.set (h : Shared s) (hi : s.Open i g)
    (hcol : t.collections = s.collections.set i ⟨g, stage⟩)
    (hgen : t.generation = s.generation) (hin : t.inflight = s.inflight) : Shared t := by
  have hback : ∀ j g', t.Open j g' → s.Open j g' := by
    rintro j _ ⟨c, hc, hd, rfl⟩
    rw [hcol] at hc
    rcases Table.set_cases hc with ⟨rfl, rfl⟩ | ⟨-, hc⟩
    · exact hi
    · exact ⟨c, hc, hd, rfl⟩
  refine ⟨fun j g' hj => ?_, fun j hj => ?_, fun j g' hj hopen => ?_, fun j k g' hj hk => ?_⟩
  · rw [hgen]
    exact h.old j g' (hback j g' hj)
  · rw [hin]
    exact h.own j (hgen ▸ hback j _ hj)
  · rw [hgen]
    exact h.joined j g' (hin ▸ hj) (hback j g' hopen)
  · exact h.single j k g' (hback j g' hj) (hback k g' hk)

theorem Shared.ensure (h : Shared s) : Shared s.ensure.1 := by
  unfold State.ensure
  cases hl : s.live with
  | some i => exact h
  | none =>
    -- a collection of this generation that went on would be in flight
    have hother : ∀ i, ¬s.Open i s.generation := by
      intro i hi
      have hin := h.own i hi
      obtain ⟨c, hc, hd, -⟩ := hi
      simp [State.live, hin, hc, hd] at hl
    have hcases : ∀ i g, State.Open { s with
          collections := s.collections ++ [⟨s.generation, .created⟩]
          inflight := some s.collections.length } i g →
        s.Open i g ∨ i = s.collections.length ∧ g = s.generation := by
      rintro i _ ⟨c, hc, hd, rfl⟩
      rcases Table.append_cases hc with hc | ⟨rfl, rfl⟩
      · exact Or.inl ⟨c, hc, hd, rfl⟩
      · exact Or.inr ⟨rfl, rfl⟩
    refine ⟨fun i g hi => ?_, fun i hi => ?_, fun i g hin hi => ?_, fun i j g hi hj => ?_⟩
    · rcases hcases i g hi with hi | ⟨-, rfl⟩
      · exact h.old i g hi
      · exact Nat.le_refl _
    · rcases hcases i _ hi with hi | ⟨rfl, -⟩
      · exact absurd hi (hother i)
      · rfl
    · cases hin
      obtain ⟨c, hc, -, rfl⟩ := hi
      cases hc.symm.trans Table.get_append_length
      rfl
    · rcases hcases i g hi with hi | ⟨rfl, rfl⟩
      · rcases hcases j g hj with hj | ⟨-, rfl⟩
        · exact h.single i j g hi hj
        · exact absurd hi (hother i)
      · rcases hcases j _ hj with hj | ⟨rfl, -⟩
        · exact absurd hj (hother j)
        · rfl

/-! ### What was read -/

theorem Fresh.settle (h : Fresh s)
    (hcache : ∀ x before, s.cache = some (x, before) → before = fingerprint s.deployments) :
    Fresh s.settle where
  settled := Nat.le_refl _
  cached x before hx := by
    obtain ⟨hb, -⟩ := h.cached x before hx
    exact ⟨hb, Or.inr (hb.symm.trans (hcache x before hx))⟩
  waiting := h.waiting

theorem Fresh.invalidate (h : Fresh s) : Fresh s.settle.invalidate where
  settled := Nat.le_refl _
  cached _ _ hx := by cases hx
  waiting := h.waiting

/-- What the new collection returns is not there yet. -/
theorem Fresh.ensure (h : Fresh s) : Fresh s.ensure.1 := by
  unfold State.ensure
  cases s.live with
  | some i => exact h
  | none =>
    refine ⟨h.settled, h.cached, fun w hw => ⟨(h.waiting w hw).1, fun g x hx => ?_⟩⟩
    rcases Table.append_cases hx with hx | ⟨-, hx⟩
    · exact (h.waiting w hw).2 g x hx
    · cases hx

/-- A call waits, for a collection that is not done. -/
theorem Fresh.wait (h : Fresh s) (hi : s.Open i g) :
    Fresh { s with waiting := ⟨i, s.saved, s.settled⟩ :: s.waiting } :=
  { h with
    waiting w hw := by
      rcases List.mem_cons.mp hw with rfl | hw
      · refine ⟨h.settled, fun g' x hx => ?_⟩
        obtain ⟨c, hc, hd, -⟩ := hi
        cases hc.symm.trans hx
        cases hd
      · exact h.waiting w hw }

/-- A collection goes on, or ends with what the deployments are. -/
theorem Fresh.set (h : Fresh s)
    (hstage : ∀ x, stage = .done (some x) → x = ⟨s.deployments, s.changes⟩) :
    Fresh { s with collections := s.collections.set i ⟨g, stage⟩ } :=
  { h with
    waiting w hw := by
      refine ⟨(h.waiting w hw).1, fun g' x hx => ?_⟩
      rcases Table.set_cases hx with ⟨-, hx⟩ | ⟨-, hx⟩
      · cases hx
        rw [hstage x rfl]
        exact Or.inl (h.waiting w hw).1
      · exact (h.waiting w hw).2 g' x hx }

/-! ### Runs -/

variable [DecidableEq V]

theorem step_spec {e : Event V R} (h : Shared s ∧ Fresh s) (hs : step s e = some t) :
    Shared t ∧ Fresh t := by
  obtain ⟨hsh, hf⟩ := h
  have hsettle : Shared s.settle := { hsh with }
  cases e with
  | change d =>
    cases hs
    have hle := Nat.le_add_right s.changes
      (if fingerprint d = fingerprint s.deployments then 0 else 1)
    refine ⟨{ hsh with }, Nat.le_trans hf.settled hle, hf.cached, ?_⟩
    exact fun w hw => ⟨Nat.le_trans (hf.waiting w hw).1 hle, (hf.waiting w hw).2⟩
  | save =>
    simp only [step] at hs
    split at hs
    · rename_i x before hx
      cases hs
      split
      · exact ⟨hsettle.invalidate, hf.invalidate⟩
      · rename_i hb
        refine ⟨hsettle, hf.settle fun y b hy => ?_⟩
        cases hx.symm.trans hy
        exact (not_not.mp hb).symm
    · rename_i hx
      cases hs
      exact ⟨hsettle, hf.settle fun y b hy => by cases hx.symm.trans hy⟩
  | invalidate =>
    cases hs
    exact ⟨hsettle.invalidate, hf.invalidate⟩
  | call age =>
    obtain ⟨-, g, hopen⟩ := ensure_open s
    simp only [step] at hs
    split at hs
    · cases hs
      exact ⟨hsh.ensure, hf.ensure⟩
    · cases hs
      exact ⟨hsh, hf⟩
    · cases hs
      exact ⟨⟨hsh.ensure.old, hsh.ensure.own, hsh.ensure.joined, hsh.ensure.single⟩,
        hf.ensure.wait hopen⟩
  | start i =>
    simp only [step] at hs
    split at hs
    · rename_i g hi
      cases hs
      exact ⟨hsh.set ⟨_, hi, rfl, rfl⟩ rfl rfl rfl, hf.set nofun⟩
    · cases hs
  | finish i ok =>
    simp only [step] at hs
    split at hs
    · rename_i g before hi
      have hset := fun stage => hsh.set (t := { s with
        collections := s.collections.set i ⟨g, stage⟩ }) ⟨_, hi, rfl, rfl⟩ rfl rfl rfl
      cases ok with
      | false =>
        cases hs
        exact ⟨hset _, hf.set nofun⟩
      | true =>
        have hread : Fresh { s with
            collections := s.collections.set i ⟨g, .done (some ⟨s.deployments, s.changes⟩)⟩ } :=
          hf.set fun _ hx => by cases hx; rfl
        simp only [if_true] at hs
        split at hs
        · rename_i hc
          cases hs
          refine ⟨⟨(hset _).old, (hset _).own, (hset _).joined, (hset _).single⟩, hread.settled,
            fun x b hx => ?_, hread.waiting⟩
          cases hx
          exact ⟨hc.2.symm, Or.inl hf.settled⟩
        · cases hs
          exact ⟨hset _, hread⟩
    · cases hs
  | forget i =>
    simp only [step] at hs
    split at hs
    · rename_i g r hi
      cases hs
      refine ⟨⟨hsh.old, fun j hj => ?_, fun j g hin => ?_, hsh.single⟩, hf.settled, hf.cached,
        hf.waiting⟩
      · have hin := hsh.own j hj
        obtain ⟨c, hc, hd, -⟩ := hj
        simp only [hin]
        rw [if_neg]
        rintro ⟨⟩
        cases hi.symm.trans hc
        cases hd
      · exact hsh.joined j g (Option.ite_none_left_eq_some.mp hin).2
    · cases hs

theorem snapshot_recent {d₀ : Deployments V R} (h : Reach step Free (init d₀) s) : Sound s := by
  have h₀ : Shared (init d₀) ∧ Fresh (init d₀) :=
    ⟨⟨nofun, nofun, nofun, nofun⟩, Nat.le_refl _, nofun, nofun⟩
  obtain ⟨hsh, hf⟩ := h.invariant h₀ fun _ _ _ ha _ hs => step_spec ha hs
  have hcached := fun x before hx => (hf.cached x before hx).2
  refine ⟨hcached, fun age x hx => ?_, fun w hw => (hf.waiting w hw).2, hsh.single,
    fun i t hs => ?_, fun age t ha hs => ?_⟩
  · cases age with
    | old => cases hx
    | fresh | stale =>
      obtain ⟨⟨x, before⟩, hc, rfl⟩ := Option.map_eq_some_iff.mp hx
      exact hcached x before hc
  · simp only [step] at hs
    split at hs
    · cases hs
      rfl
    · cases hs
  · simp only [step, ha] at hs
    cases hs
    obtain ⟨hin, g, hopen⟩ := ensure_open s
    have hg := hsh.ensure.joined _ g hin hopen
    obtain ⟨hgen, hwait⟩ : s.ensure.1.generation = s.generation ∧
        s.ensure.1.waiting = s.waiting := by
      unfold State.ensure
      cases s.live <;> exact ⟨rfl, rfl⟩
    exact ⟨_, congrArg _ hwait, hgen ▸ hg ▸ hopen⟩

/-! ## Changes that undo each other -/

/-- One deployment with the given `desired_state`. -/
def wanted (state : String) : Deployments String Unit := [some ⟨"d", state, state, [], ()⟩]

theorem snapshot_recent_cached : ∃ s : State String Unit, s.cache.isSome = true ∧ Sound s := by
  have h : replay step Free (init (wanted "running"))
      [.call .fresh, .start 0, .finish 0 true] = some _ := rfl
  exact ⟨_, rfl, snapshot_recent (reach_of_replay h)⟩

/-- A stop and a start that are saved together leave the snapshot from before them in the cache. -/
theorem undone_before_saved : ∃ s x before, Reach step Free (init (wanted "running")) s ∧
    s.cache = some (x, before) ∧ x.changes < s.settled := by
  have h : replay step Free (init (wanted "running"))
      [.call .fresh, .start 0, .finish 0 true, .change (wanted "stopped"),
        .change (wanted "running"), .save] = some _ := rfl
  exact ⟨_, _, _, reach_of_replay h, rfl, by decide⟩

end SparkDeck.StateCache
