import SparkDeck.Lib.Table
import SparkDeck.NodeStatus.Registry

/-!
# Snapshots after a settled change

When a snapshot can be older than a settled change of its node. Only `invalidate_status` moves the
generation that an attempt compares itself with; `update`, `remove` and `pair_remote` take the
cached snapshot away and leave the attempts that are under way to put theirs in its place.

* `clean` is the condition on a step: an attempt starts, or starts over, with the dict that the
  registry holds, and the node has not been changed during an attempt that ends with the generation
  it started with.
* `Inv`, kept by every clean step: what is cached was read after the last settled call, from fields
  that the registry has held since.
* `snapshots_settled`: in a run of clean steps the cached snapshot is that new, and `probe` returns
  nothing that is older than its call.
* `renamed_in_flight`: a probe reads a node that is renamed under it, and is cached and returned
  with the old name.
-/

namespace SparkDeck.NodeStatus

open Transition

variable (strip : String → String)

/-- The condition on a step. -/
def clean (s : State) : Label → Bool
  | .begin task _ =>
    match s.tasks[task]? with
    | some (.created node _) => s.current = some node
    | _ => true
  | .resume task r clock =>
    match s.tasks[task]? with
    | some (.running a) =>
      match a.advance strip r clock.wall with
      | .waits _ => true
      | .finds _ =>
        if a.generation = s.generation then a.changes = s.changes else s.current = some a.node
    | _ => true
  | _ => true

/-! ## What a snapshot is made from -/

/-- Every field is one that the registry has held; a name that is empty there is the agent's. -/
structure Held (recent : List Config) (r : Config) : Prop where
  name : ∃ c ∈ recent, c.name = r.name ∨ c.name.getD "" = ""
  agentUrl : ∃ c ∈ recent, c.agentUrl = r.agentUrl
  fabricIp : ∃ c ∈ recent, c.fabricIp = r.fabricIp
  fabricInterface : ∃ c ∈ recent, c.fabricInterface = r.fabricInterface
  enabled : ∃ c ∈ recent, c.enabled = r.enabled
  hidden : ∃ c ∈ recent, c.hidden = r.hidden

theorem Held.of_mem {recent : List Config} {c : Config} (h : c ∈ recent) : Held recent c :=
  ⟨⟨c, h, Or.inl rfl⟩, ⟨c, h, rfl⟩, ⟨c, h, rfl⟩, ⟨c, h, rfl⟩, ⟨c, h, rfl⟩, ⟨c, h, rfl⟩⟩

variable {recent more : List Config}

theorem Held.mono {r : Config} (hsub : ∀ c ∈ recent, c ∈ more) (h : Held recent r) :
    Held more r where
  name := h.name.imp fun c hc => ⟨hsub c hc.1, hc.2⟩
  agentUrl := h.agentUrl.imp fun c hc => ⟨hsub c hc.1, hc.2⟩
  fabricIp := h.fabricIp.imp fun c hc => ⟨hsub c hc.1, hc.2⟩
  fabricInterface := h.fabricInterface.imp fun c hc => ⟨hsub c hc.1, hc.2⟩
  enabled := h.enabled.imp fun c hc => ⟨hsub c hc.1, hc.2⟩
  hidden := h.hidden.imp fun c hc => ⟨hsub c hc.1, hc.2⟩

/-- A snapshot read since the last settled call, of the node as it has been since. -/
structure Fresh (epoch : ℕ) (recent : List Config) (x : Snapshot) : Prop where
  oldest : x.oldest = epoch
  held : Held recent x.report
  enabled : x.status ≠ .disabled → ∃ c ∈ recent, c.enabled

variable {x : Snapshot}

theorem Fresh.mono {epoch : ℕ} (hsub : ∀ c ∈ recent, c ∈ more) (h : Fresh epoch recent x) :
    Fresh epoch more x :=
  ⟨h.oldest, h.held.mono hsub, fun hx => (h.enabled hx).imp fun c hc => ⟨hsub c hc.1, hc.2⟩⟩

/-- What an attempt may end with. -/
structure Result (a : Attempt) (x : Snapshot) : Prop where
  oldest : ∃ withCached, x.oldest = a.oldest withCached
  report : x.report = a.config ∨ ∃ status carried, x.report = a.report status carried
  status : x.status ≠ .disabled

theorem result_unreachable (a : Attempt) (text : String) : Result a (a.unreachable text) :=
  ⟨⟨true, rfl⟩, Or.inl rfl, by unfold Attempt.unreachable; exact Status.noConfusion⟩

theorem result_result (a : Attempt) (status : Reading) (carried : Bool) (issues : List String)
    (wall : ℚ) : Result a (a.result status carried issues wall) := by
  refine ⟨⟨carried, rfl⟩, Or.inr ⟨status, carried, rfl⟩, ?_⟩
  unfold Attempt.result
  split <;> exact Status.noConfusion

/-- An attempt goes on as the same attempt, or ends with one of its results. -/
def Goes (a : Attempt) : Progress → Prop
  | .waits a' => ∃ stage, a' = { a with stage }
  | .finds x => Result a x

variable {strip}

theorem goes_detailed (a : Attempt) (status : Reading) (carried : Bool) (issues : List String)
    (wall : ℚ) : Goes a (a.detailed strip status carried issues wall) := by
  unfold Attempt.detailed
  dsimp only
  split
  · exact ⟨_, rfl⟩
  · exact result_result a status carried _ wall

theorem goes_answered (a : Attempt) (status : Reading) (hasDetails : Bool) (wall : ℚ) :
    Goes a (a.answered strip status hasDetails wall) := by
  unfold Attempt.answered
  dsimp only
  split
  · exact ⟨_, rfl⟩
  · exact goes_detailed a status false _ wall

theorem goes_advance (a : Attempt) (r : Response) (wall : ℚ) : Goes a (a.advance strip r wall) := by
  unfold Attempt.advance
  split
  · exact goes_answered a _ false wall
  · exact ⟨_, rfl⟩
  · exact result_unreachable a _
  · exact goes_answered a _ true wall
  · exact result_unreachable a _
  · exact goes_detailed a _ false _ wall
  · dsimp only
    split
    · exact goes_detailed a _ true _ wall
    · exact goes_detailed a _ false _ wall
  · exact result_result a _ _ _ wall
  · exact result_result a _ _ _ wall

/-! ## The invariant -/

/-- An attempt knows when it started, and what it holds is new while nothing is settled. -/
structure AttemptOk (epoch changes generation : ℕ) (recent : List Config) (a : Attempt) : Prop where
  born : a.born = a.changes + a.generation
  changes_le : a.changes ≤ changes
  generation_le : a.generation ≤ generation
  enabled : a.config.enabled
  config : a.born = epoch → a.config ∈ recent
  cached : a.born = epoch → ∀ x, a.cached = some x → Fresh epoch recent x

structure Inv (s : State) : Prop where
  count : s.epoch = s.changes + s.generation
  range : ∀ n, s.current = some n → n < s.dicts.length
  config : ∀ c, s.config = some c → c ∈ s.recent
  cache : ∀ stored x, s.cache = some (stored, x) → Fresh s.epoch s.recent x
  tasks : ∀ (i : ℕ) (a : Attempt), s.tasks[i]? = some (Task.running a) →
    AttemptOk s.epoch s.changes s.generation s.recent a
  calls : ∀ c ∈ s.calls, c.epoch ≤ s.epoch ∧
    ∀ x, s.tasks[c.task]? = some (Task.done (some x)) → c.epoch ≤ x.oldest
  returned : ∀ y ∈ s.returned, y.1 ≤ y.2.oldest

variable {s : State}

theorem getElem?_set_cases {T T' : Task} {l : List Task} {i j : ℕ}
    (h : (l.set i T)[j]? = some T') : T' = T ∨ l[j]? = some T' := by
  rw [List.getElem?_set] at h
  split at h
  case isTrue =>
    split at h
    case isTrue => exact Or.inl (Option.some.inj h).symm
    case isFalse => cases h
  case isFalse => exact Or.inr h

/-- A task goes on. -/
theorem Inv.setTask (hi : Inv s) {i : ℕ} {T : Task}
    (hrun : ∀ a, T = .running a → AttemptOk s.epoch s.changes s.generation s.recent a)
    (hdone : ∀ x, T = .done (some x) → x.oldest = s.epoch) :
    Inv { s with tasks := s.tasks.set i T } :=
  { hi with
    tasks := fun j a h => by
      obtain hT | hold := getElem?_set_cases h
      · exact hrun a hT.symm
      · exact hi.tasks j a hold
    calls := fun c hc => by
      obtain ⟨hle, hres⟩ := hi.calls c hc
      refine ⟨hle, fun x h => ?_⟩
      obtain hT | hold := getElem?_set_cases h
      · exact (hdone x hT.symm) ▸ hle
      · exact hres x hold }

variable {task : ℕ}

theorem Inv.publish (hi : Inv s) (hx : Fresh s.epoch s.recent x) (now : ℚ) :
    Inv (s.publish task x now) := by
  have hset := hi.setTask (i := task) (T := .done (some x)) (fun a h => by cases h)
    (fun y h => by cases h; exact hx.oldest)
  exact { hset with cache := fun stored y h => by cases h; exact hx }

/-- An attempt with the dict that the registry holds starts new. -/
theorem Inv.start (hi : Inv s) {task node : ℕ} {c : Config} (details : Bool) (now : ℚ)
    (hc : s.config = some c) : Inv (s.start task node details c now) := by
  have hmem := hi.config c hc
  unfold State.start
  split
  case isTrue henabled =>
    refine hi.setTask (fun a h => ?_) (fun x h => by cases h)
    cases h
    refine ⟨hi.count, Nat.le_refl _, Nat.le_refl _, henabled, fun _ => hmem, fun _ x hx => ?_⟩
    obtain ⟨⟨stored, y⟩, hcache, rfl⟩ := Option.map_eq_some_iff.mp hx
    exact hi.cache stored y hcache
  case isFalse =>
    exact hi.publish ⟨rfl, Held.of_mem hmem, fun hne => absurd rfl hne⟩ now

/-- The result of an attempt during which nothing was settled is new. -/
theorem AttemptOk.fresh {epoch changes generation : ℕ} {recent : List Config} {a : Attempt}
    (ha : AttemptOk epoch changes generation recent a) (hborn : a.born = epoch) (hx : Result a x) :
    Fresh epoch recent x := by
  have hconfig := ha.config hborn
  refine ⟨?_, ?_, fun _ => ⟨a.config, hconfig, ha.enabled⟩⟩
  · obtain ⟨withCached, ho⟩ := hx.oldest
    rw [ho]
    unfold Attempt.oldest
    split
    case h_1 y hy =>
      rw [(ha.cached hborn y hy).oldest, hborn, Nat.min_self]
    case h_2 => exact hborn
  · obtain hr | ⟨status, carried, hr⟩ := hx.report
    · exact hr ▸ Held.of_mem hconfig
    · have hbase : Held recent (a.base carried) := by
        unfold Attempt.base
        split
        case h_1 y hy => exact (ha.cached hborn y hy).held
        case h_2 => exact Held.of_mem hconfig
      rw [hr]
      refine { hbase with name := ⟨a.config, hconfig, ?_⟩, hidden := ⟨a.config, hconfig, rfl⟩ }
      unfold Attempt.report
      split
      case isTrue hempty => exact Or.inr hempty
      case isFalse => exact Or.inl rfl

/-! ## The steps -/

/-- A settled call: what was read before is out of date. -/
theorem Inv.settle (hi : Inv s) {s' : State} (hcount : s'.epoch = s'.changes + s'.generation)
    (hepoch : s'.epoch = s.epoch + 1) (hchanges : s.changes ≤ s'.changes)
    (hgeneration : s.generation ≤ s'.generation)
    (hrange : ∀ n, s'.current = some n → n < s'.dicts.length) (hrecent : s'.recent = s'.config.toList)
    (hcache : s'.cache = none) (htasks : s'.tasks = s.tasks) (hcalls : s'.calls = s.calls)
    (hreturned : s'.returned = s.returned) : Inv s' where
  count := hcount
  range := hrange
  config := fun c hc => by
    rw [hrecent, hc]
    exact List.mem_singleton.mpr rfl
  cache := fun stored x h => by
    rw [hcache] at h
    cases h
  tasks := fun i a h => by
    rw [htasks] at h
    have ha := hi.tasks i a h
    have hle : a.born ≤ s.epoch := by
      have hborn := ha.born
      have hc := ha.changes_le
      have hg := ha.generation_le
      have hcount := hi.count
      omega
    exact ⟨ha.born, ha.changes_le.trans hchanges, ha.generation_le.trans hgeneration, ha.enabled,
      fun he => by omega, fun he => by omega⟩
  calls := fun c hc => by
    rw [hcalls] at hc
    obtain ⟨hle, hres⟩ := hi.calls c hc
    rw [htasks]
    exact ⟨by omega, hres⟩
  returned := fun y hy => hi.returned y (hreturned ▸ hy)

variable {current : Option ℕ} {dicts : List Config}

/-- A change that is not settled: the registry may hold what it held and the changed fields. -/
theorem Inv.unsettled (hi : Inv s) (hrange : ∀ n, current = some n → n < dicts.length) :
    Inv (s.unsettled current dicts) := by
  have hsub : ∀ c ∈ s.recent, c ∈ (s.unsettled current dicts).recent := fun c hc =>
    List.mem_append_right _ hc
  refine ⟨hi.count, hrange, fun c hc => ?_, fun stored x h => (hi.cache stored x h).mono hsub, ?_,
    hi.calls, hi.returned⟩
  · refine List.mem_append_left _ ?_
    have hconfig : (State.config { s with current, dicts }) = some c := hc
    rw [hconfig]
    exact List.mem_singleton.mpr rfl
  · intro i a h
    have ha := hi.tasks i a h
    exact ⟨ha.born, ha.changes_le, ha.generation_le, ha.enabled, fun he => hsub _ (ha.config he),
      fun he x hx => (ha.cached he x hx).mono hsub⟩

theorem Inv.settled (hi : Inv s) (hrange : ∀ n, current = some n → n < dicts.length) :
    Inv (s.settled current dicts) := by
  have hcount := hi.count
  refine hi.settle ?_ rfl (Nat.le_succ _) (Nat.le_refl _) hrange rfl rfl rfl rfl rfl
  unfold State.settled
  dsimp only
  omega

theorem Inv.change (hi : Inv s) (saved : Bool) (hrange : ∀ n, current = some n → n < dicts.length) :
    Inv (s.change saved current dicts) := by
  unfold State.change
  split
  · exact hi.settled hrange
  · exact hi.unsettled hrange

theorem Inv.invalidate (hi : Inv s) : Inv s.invalidate := by
  have hcount := hi.count
  refine hi.settle ?_ rfl (Nat.le_refl _) (Nat.le_succ _) hi.range rfl rfl rfl rfl rfl
  unfold State.invalidate
  dsimp only
  omega

theorem Inv.update (hi : Inv s) (node : ℕ) (c : Config) (change : Change) (saved : Bool) :
    Inv (s.update node c change saved) := by
  have hrange : ∀ (c : Config) (n : ℕ), s.current = some n → n < (s.dicts.set node c).length := by
    intro c n hn
    rw [List.length_set]
    exact hi.range n hn
  unfold State.update
  split
  · exact hi.change saved (hrange _)
  · exact hi.unsettled (hrange _)
  · exact hi.change saved (hrange _)

theorem Inv.startProbe (hi : Inv s) (node : ℕ) (details : Bool) :
    Inv (s.startProbe node details) := by
  have hold : ∀ (i : ℕ) (T : Task), (s.tasks ++ [.created node details])[i]? = some T →
      T = .created node details ∨ s.tasks[i]? = some T := by
    intro i T h
    rw [List.getElem?_append] at h
    split at h
    case isTrue => exact Or.inr h
    case isFalse =>
      exact Or.inl (List.mem_singleton.mp (List.mem_of_getElem? h))
  refine { hi with tasks := fun i a h => ?_, calls := fun c hc => ?_ }
  · obtain hT | hT := hold i _ h
    · cases hT
    · exact hi.tasks i a hT
  · obtain ⟨hle, hres⟩ := hi.calls c hc
    refine ⟨hle, fun x h => ?_⟩
    obtain hT | hT := hold c.task _ h
    · cases hT
    · exact hres x hT

theorem Inv.ensureProbe (hi : Inv s) (node : ℕ) (details : Bool) :
    Inv (s.ensureProbe node details) := by
  unfold State.ensureProbe
  split
  · exact hi
  · exact hi.startProbe node details

/-- Only a task that is not done is waited for. -/
theorem Inv.wait (hi : Inv s) (hpending : s.pending task) : Inv (s.wait task) := by
  refine { hi with calls := fun c hc => ?_ }
  rcases Table.mem_snoc hc with hc | rfl
  · exact hi.calls c hc
  · refine ⟨Nat.le_refl _, fun x h => ?_⟩
    unfold State.pending at hpending
    have hdone : s.tasks[task]? = some (Task.done (some x)) := h
    rw [hdone] at hpending
    cases hpending

theorem Inv.give (hi : Inv s) (hx : x.oldest = s.epoch) : Inv (s.give x) := by
  refine { hi with returned := fun y hy => ?_ }
  rcases Table.mem_snoc hy with hy | rfl
  · exact hi.returned y hy
  · exact Nat.le_of_eq hx.symm

theorem reusable_pending {details : Bool} (h : s.reusable details = some task) :
    s.pending task := by
  unfold State.reusable at h
  split at h
  case h_1 t rich _ =>
    obtain ⟨hc, rfl⟩ := guard_some h
    exact (Bool.and_eq_true_iff.mp hc).1
  case h_2 => cases h

theorem Inv.join (hi : Inv s) (node : ℕ) (force details : Bool) :
    Inv (s.join node force details) := by
  unfold State.join
  split
  case h_1 task h =>
    refine hi.wait ?_
    obtain ⟨_, h⟩ := Option.ite_none_left_eq_some.mp h
    exact reusable_pending h
  case h_2 =>
    refine (hi.startProbe node details).wait ?_
    unfold State.pending State.startProbe
    rw [List.getElem?_append_right (Nat.le_refl _), Nat.sub_self]
    rfl

theorem Inv.probe (hi : Inv s) (node : ℕ) (force details allowStale : Bool) (now : ℚ) :
    Inv (s.probe node force details allowStale now) := by
  unfold State.probe
  split
  case h_1 stored entry h =>
    have hentry : Fresh s.epoch s.recent entry := by
      obtain ⟨_, h⟩ := Option.ite_none_left_eq_some.mp h
      exact hi.cache stored entry h
    split
    · exact hi.give hentry.oldest
    · split
      · refine (hi.ensureProbe node true).give ?_
        unfold State.ensureProbe
        split
        · exact hentry.oldest
        · exact hentry.oldest
      · exact hi.join node force details
  case h_2 => exact hi.join node force details

theorem Inv.finish (hi : Inv s) {a : Attempt} (now : ℚ)
    (ha : AttemptOk s.epoch s.changes s.generation s.recent a) (hx : Result a x)
    (hclean : if a.generation = s.generation then a.changes = s.changes else s.current = some a.node) :
    Inv (s.finish task a x now) := by
  unfold State.finish
  split
  case isTrue hgen =>
    rw [if_pos hgen] at hclean
    have hcount := hi.count
    have hborn := ha.born
    exact hi.publish (ha.fresh (by omega) hx) now
  case isFalse hgen =>
    rw [if_neg hgen] at hclean
    refine hi.start a.details now ?_
    have hlt := hi.range a.node hclean
    unfold State.config
    rw [hclean, Option.bind_some, List.getD_eq_getElem?_getD, List.getElem?_eq_getElem hlt]
    rfl

theorem step_inv (hi : Inv s) {l : Label} {s' : State} (hclean : clean strip s l)
    (hs : step strip s l = some s') : Inv s' := by
  unfold step at hs
  cases l with
  | probe node force details allowStale now =>
    obtain ⟨_, rfl⟩ := guard_some hs
    exact hi.probe node force details allowStale now
  | ensure node details =>
    obtain ⟨_, rfl⟩ := guard_some hs
    exact hi.ensureProbe node details
  | begin task clock =>
    unfold clean at hclean
    dsimp only at hs hclean
    split at hs
    case h_1 node details ht =>
      rw [ht] at hclean
      obtain ⟨c, hc, rfl⟩ := Option.map_eq_some_iff.mp hs
      refine hi.start details clock.monotonic ?_
      unfold State.config
      rw [of_decide_eq_true hclean, Option.bind_some, hc]
    case h_2 => cases hs
  | resume task r clock =>
    unfold clean at hclean
    dsimp only at hs hclean
    split at hs
    case h_1 a ht =>
      have ha := hi.tasks task a ht
      have hgoes : Goes a (a.advance strip r clock.wall) := goes_advance a r clock.wall
      rw [ht] at hclean
      dsimp only at hclean
      split at hs
      case h_1 a' hw =>
        rw [hw] at hgoes
        obtain ⟨stage, rfl⟩ := hgoes
        cases hs
        refine hi.setTask (fun b hb => ?_) (fun x hx => by cases hx)
        cases hb
        exact { ha with }
      case h_2 x hw =>
        rw [hw] at hgoes hclean
        cases hs
        refine hi.finish clock.monotonic ha hgoes ?_
        dsimp only at hclean
        split at hclean
        case isTrue hgen =>
          rw [if_pos hgen]
          exact of_decide_eq_true hclean
        case isFalse hgen =>
          rw [if_neg hgen]
          exact of_decide_eq_true hclean
    case h_2 => cases hs
  | cancel task =>
    obtain ⟨_, rfl⟩ := guard_some hs
    exact hi.setTask (fun a h => by cases h) (fun x h => by cases h)
  | forget task =>
    obtain ⟨_, hs⟩ := Option.ite_none_left_eq_some.mp hs
    split at hs
    case h_1 =>
      cases hs
      split
      · exact { hi with }
      · exact hi
    case h_2 =>
      cases hs
      exact hi
  | deliver call =>
    dsimp only at hs
    split at hs
    case h_1 c hc =>
      split at hs
      case h_1 result ht =>
        cases hs
        refine { hi with calls := fun d hd => ?_, returned := fun y hy => ?_ }
        · exact hi.calls d (List.mem_of_mem_eraseIdx hd)
        · rcases List.mem_append.mp hy with hy | hy
          · exact hi.returned y hy
          · obtain ⟨x, hx, rfl⟩ := Option.map_eq_some_iff.mp (Option.mem_toList.mp hy)
            obtain rfl : result = some x := hx
            exact (hi.calls c (List.mem_of_getElem? hc)).2 x ht
      case h_2 => cases hs
    case h_2 => cases hs
  | invalidate =>
    cases hs
    exact hi.invalidate
  | update change saved =>
    dsimp only at hs
    split at hs
    case h_1 node c _ _ =>
      cases hs
      exact hi.update node c change saved
    case h_2 => cases hs
  | remove saved =>
    dsimp only at hs
    split at hs
    case h_1 =>
      cases hs
      exact hi.change saved fun n hn => by cases hn
    case h_2 => cases hs
  | pair config saved =>
    cases hs
    refine hi.change saved fun n hn => ?_
    cases hn
    rw [List.length_append]
    exact Nat.lt_succ_self _

theorem init_inv (node : Option Config) : Inv (init node) := by
  refine ⟨rfl, fun n hn => ?_, fun c hc => ?_, fun stored x h => ?_, fun i a h => ?_,
    fun c hc => ?_, fun y hy => ?_⟩
  · cases node with
    | none => cases hn
    | some c =>
      cases hn
      exact Nat.zero_lt_one
  · cases node with
    | none => cases hc
    | some d =>
      cases hc
      exact List.mem_singleton.mpr rfl
  · cases h
  · cases h
  · cases hc
  · cases hy

/-! ## Runs -/

/-- In a run of clean steps the cached snapshot is newer than every settled call, says what the
registry has held since, and a snapshot that `probe` returns is no older than its call. -/
theorem snapshots_settled {node : Option Config} {s : State}
    (hs : Reach (step strip) (fun s l => clean strip s l = true) (init node) s) :
    (∀ stored x, s.cache = some (stored, x) → x.oldest = s.epoch ∧ Held s.recent x.report ∧
      (x.status ≠ .disabled → ∃ c ∈ s.recent, c.enabled = true)) ∧
    ∀ y ∈ s.returned, y.1 ≤ y.2.oldest := by
  have hi : Inv s := hs.invariant (init_inv node) fun a l b ha hc hstep => step_inv ha hc hstep
  refine ⟨fun stored x h => ?_, hi.returned⟩
  have hx := hi.cache stored x h
  exact ⟨hx.oldest, hx.held, hx.enabled⟩

def worker : Config := ⟨some "old", "http://10.0.0.2", none, none, true, false⟩

def rename : Change := ⟨some (some "new"), none, none, none, none, none⟩

def healthy : Response := .ok ⟨some 2, some true, some "agent", none⟩

def early : Clock := ⟨0, 0⟩

/-- A probe is invalidated under way and reads again; the node is renamed and probed after that. -/
def quietRun : List Label :=
  [.probe 0 false false false 0, .begin 0 early, .invalidate, .resume 0 healthy early,
    .resume 0 healthy early, .deliver 0, .forget 0, .update rename true, .probe 0 false false false 1,
    .begin 1 early, .resume 1 healthy early, .deliver 0]

theorem snapshots_settled_quiet :
    ∃ s, Reach (step id) (fun s l => clean id s l = true) (init (some worker)) s ∧
      (∀ stored x, s.cache = some (stored, x) → x.oldest = s.epoch ∧ Held s.recent x.report ∧
        (x.status ≠ .disabled → ∃ c ∈ s.recent, c.enabled = true)) ∧
      (∀ y ∈ s.returned, y.1 ≤ y.2.oldest) ∧
      (s.cache.map fun y => y.2.report.name) = some (some "new") ∧ s.returned.length = 2 := by
  obtain ⟨s, hs, hp⟩ := reach_any (p := fun s : State =>
    (s.cache.map fun y => y.2.report.name) == some (some "new") && s.returned.length == 2)
    (show (replay (step id) (fun s l => clean id s l = true) (init (some worker)) quietRun).any _ =
      true by decide +kernel)
  obtain ⟨hname, hlength⟩ := Bool.and_eq_true_iff.mp hp
  exact ⟨s, hs, (snapshots_settled hs).1, (snapshots_settled hs).2, beq_iff_eq.mp hname,
    beq_iff_eq.mp hlength⟩

/-- The node is renamed while its health is read; the second probe shares the task. -/
def renamedRun : List Label :=
  [.probe 0 false false false 0, .begin 0 early, .update rename true, .probe 0 false false false 0,
    .resume 0 healthy early, .deliver 1]

/-- The registry has the new name, settled; the cache and a later probe have the old one. -/
theorem renamed_in_flight :
    ((replay (step id) Free (init (some worker)) renamedRun).map fun s =>
        (s.epoch, s.config.bind Config.name)) = some (1, some "new") ∧
    ((replay (step id) Free (init (some worker)) renamedRun).bind fun s =>
        s.cache.map fun y => (y.2.oldest, y.2.report.name)) = some (0, some "old") ∧
    ((replay (step id) Free (init (some worker)) renamedRun).map fun s =>
        s.returned.map fun y => (y.1, y.2.oldest, y.2.report.name)) =
      some [(1, 0, some "old")] := by
  refine ⟨?_, ?_, ?_⟩ <;> decide +kernel

end SparkDeck.NodeStatus
