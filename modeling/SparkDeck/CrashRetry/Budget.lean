import SparkDeck.CrashRetry.Tick
import SparkDeck.Lib.Transition
import Mathlib.Tactic.Linarith
import Mathlib.Data.List.Chain

/-!
# Automatic crash restart respects its budget and intent

`healthy_seen` is meant to say that a deployment was observed serving since it was created or last
stopped, but only a tick that finds `desired_state == "stopped"` takes a deployment out of it. A stop
and a start between two ticks, or stops of every group one by one, leave it in; and a status
published before the stop puts it back. So a launch that never served may be restarted. A task that
starts the groups one after another does not look at the intent again between them, so it starts a
group that its user stopped meanwhile.

`Clean` excludes the two. Then `Good`, which says what the tables know of the history (`Paced`), of
the tasks (`Alone`) and of the user's stops (`Minded`), is kept by every step, and it gives `Respects`.
-/

namespace SparkDeck.CrashRetry

open Transition

/-- What the automatic restart of a deployment owes. -/
structure Watch.Respects (w : Watch) : Prop where
  /-- At most `crashRetryLimit` restarts within an episode, -/
  budget : w.episode.length ≤ crashRetryLimit
  /-- at least `crashRetryDelay` apart, -/
  spacing : w.episode.IsChain fun later earlier => earlier + crashRetryDelay ≤ later
  /-- one at a time, -/
  single : w.tasks.length ≤ 1
  /-- none before the deployment was observed serving, -/
  served : w.unserved = false
  /-- and no start against a stop of the user. -/
  intent : w.overridden = false

variable {D : Type*} [DecidableEq D]

/-- A stop is recorded only when no restart task has a start of its target left; and a deployment
that was not observed serving since its user stopped it is started again only after that was
forgotten and once nothing published says that it is serving. -/
def Clean (g : World D) : Label D → Prop
  | .stop id none => (g.watch id).tasks = []
  | .stop id (some i) => ∀ task ∈ (g.watch id).tasks, some i ∉ task
  | .start id _ =>
    (g.watch id).served = false → (g.watch id).healthySeen = false ∧
      ∀ d ∈ (g.watch id).deployment, ((g.watch id).reading d).serving = false
  | _ => True

instance (g : World D) (e : Label D) : Decidable (Clean g e) := by
  unfold Clean
  split <;> infer_instance

namespace Watch

/-- The restarts of an episode, as the tables have them. -/
structure Paced (w : Watch) : Prop where
  budget : w.episode.length ≤ crashRetryLimit
  spacing : w.episode.IsChain fun later earlier => earlier + crashRetryDelay ≤ later
  positive : ∀ t ∈ w.episode, 0 < t
  /-- While a restart is possible the tables know the episode. -/
  counted : w.healthySeen → w.episode.length ≤ w.attempts.getD 0
  stamped : w.healthySeen → ∀ t ∈ w.episode.head?, w.stamp = some t
  /-- A deployment that is read as serving has had no restart since it was observed so. -/
  quiet : ∀ d ∈ w.deployment, (w.reading d).serving → w.episode = []

/-- The restart tasks. -/
structure Alone (w : Watch) : Prop where
  single : w.tasks.length ≤ 1
  inflight : w.tasks ≠ [] → w.deployment.isSome → w.inflight

/-- The user's stops, and what is left to start. -/
structure Minded (w : Watch) : Prop where
  whole : ∀ d ∈ w.deployment, w.standing none → d.stopped
  group : ∀ d ∈ w.deployment, d.grouped → ∀ i, w.standing (some i) →
    ∀ m ∈ d.members, m.group = i → m.stopped
  left : ∀ task ∈ w.tasks, w.standing none = false ∧ ∀ t ∈ task, w.standing t = false
  /-- A grouped deployment is not started as a whole: that would clear the stops of its groups. -/
  targets : ∀ d ∈ w.deployment, d.grouped → ∀ task ∈ w.tasks, none ∉ task
  served : ∀ d ∈ w.deployment, w.served = false →
    w.healthySeen = false ∧ (w.reading d).serving = false ∨ w.AllStopped d
  unserved : w.unserved = false
  overridden : w.overridden = false

structure Good (w : Watch) : Prop where
  paced : w.Paced
  alone : w.Alone
  minded : w.Minded

variable {w w' : Watch} {d : Deployment} {now : ℚ}

theorem Good.respects (h : w.Good) : w.Respects :=
  ⟨h.paced.budget, h.paced.spacing, h.alone.single, h.minded.unserved, h.minded.overridden⟩

theorem good_unused : unused.Good where
  paced := ⟨Nat.zero_le _, .nil, by simp [unused], by simp [unused], by simp [unused],
    by simp [unused]⟩
  alone := ⟨Nat.zero_le _, by simp [unused]⟩
  minded := ⟨by simp [unused], by simp [unused], by simp [unused], by simp [unused],
    by simp [unused], rfl, rfl⟩

/-! ## The tick -/

variable {is : List ℕ}

/-- A restart goes to the groups that are meant to run. -/
theorem intended_of_instances (h : d.crashRetryInstances = some is) :
    if d.grouped then is ≠ [] ∧ ∀ i ∈ is, ∃ m ∈ d.members, m.group = i ∧
      ∀ n ∈ d.members, n.group = i → n.stopped = false
    else is = [] := by
  unfold Deployment.crashRetryInstances at h
  split at h
  case isTrue hg =>
    rw [if_pos hg]
    obtain ⟨hne, h⟩ := Option.ite_none_left_eq_some.mp h
    cases h
    refine ⟨hne, fun i hi => ?_⟩
    rw [List.mem_insertionSort, List.mem_filter, List.mem_dedup, List.mem_map] at hi
    obtain ⟨⟨m, hm, rfl⟩, hall⟩ := hi
    refine ⟨m, hm, rfl, fun n hn hgroup => ?_⟩
    by_contra hst
    simp only [Bool.not_eq_true', List.any_eq_false, Bool.and_eq_true, beq_iff_eq, not_and,
      Bool.not_eq_true] at hall
    exact hst (hall n hn hgroup)
  case isFalse hg =>
    rw [if_neg hg]
    exact (Option.some.inj h).symm

/-- A deployment its user stopped has nothing to restart. -/
theorem Minded.not_allStopped (h : w.Minded) (hd : w.deployment = some d) (hst : d.stopped = false)
    (his : d.crashRetryInstances = some is) : ¬w.AllStopped d := by
  intro hall
  have hint := intended_of_instances his
  unfold AllStopped at hall
  cases hg : d.grouped with
  | true =>
    rw [if_pos hg] at hall hint
    obtain ⟨hne, hint⟩ := hint
    obtain ⟨i, hi⟩ := List.exists_mem_of_ne_nil is hne
    obtain ⟨m, hm, rfl, hgo⟩ := hint i hi
    have hstop := h.group d hd hg m.group (hall m hm) m hm rfl
    simp [hgo m hm rfl] at hstop
  | false =>
    rw [if_neg (by simp [hg])] at hall
    simp [h.whole d hd hall] at hst

theorem Paced.spawn (h : w.Paced) (hnow : 0 < now) (hd : w.deployment = some d)
    (hr : (w.reading d).serving = false) (hhealthy : w.healthySeen = true)
    (htried : w.attempts.getD 0 < crashRetryLimit) (hwait : w.waited now) (is : List ℕ) :
    (w.spawn now is).Paced := by
  have hcount := h.counted hhealthy
  have hspaced : ∀ t ∈ w.episode.head?, t + crashRetryDelay ≤ now := by
    intro t ht
    have hstamp := h.stamped hhealthy t ht
    have hpos : 0 < t := h.positive t (List.mem_of_mem_head? ht)
    simp only [waited, hstamp, decide_eq_true_eq] at hwait
    rcases hwait with hzero | hwait
    · exact absurd hzero hpos.ne'
    · linarith
  refine ⟨?_, ?_, ?_, fun _ => ?_, fun _ t ht => ?_, fun d' hd' hserv => ?_⟩
  · show w.episode.length + 1 ≤ crashRetryLimit
    omega
  · exact List.isChain_cons.mpr ⟨hspaced, h.spacing⟩
  · intro t ht
    rcases List.mem_cons.mp ht with rfl | ht
    · exact hnow
    · exact h.positive t ht
  · show w.episode.length + 1 ≤ w.attempts.getD 0 + 1
    omega
  · exact congrArg some (Option.some.inj ht)
  · obtain rfl : d = d' := Option.some.inj (hd.symm.trans hd')
    have hsame : (w.spawn now is).reading d = w.reading d := rfl
    simp [hsame, hr] at hserv

theorem Alone.spawn (h : w.Alone) (hd : w.deployment = some d) (hin : w.inflight = false)
    (is : List ℕ) : (w.spawn now is).Alone := by
  have hnone : w.tasks = [] := by
    by_contra hne
    simp [h.inflight hne (by simp [hd])] at hin
  exact ⟨by simp [Watch.spawn, hnone], fun _ _ => rfl⟩

theorem Minded.spawn (h : w.Minded) (hd : w.deployment = some d) (hst : d.stopped = false)
    (hhealthy : w.healthySeen) (his : d.crashRetryInstances = some is) :
    (w.spawn now is).Minded := by
  have hserved : w.served := by
    by_contra hs
    rcases h.served d hd (by simpa using hs) with ⟨hno, -⟩ | hall
    · simp [hhealthy] at hno
    · exact h.not_allStopped hd hst his hall
  have hwhole : w.standing none = false := by
    by_contra hs
    simp [h.whole d hd (by simpa using hs)] at hst
  have hint := intended_of_instances his
  refine ⟨h.whole, h.group, fun task htask => ⟨hwhole, fun t ht => ?_⟩,
    fun d' hd' hg task htask => ?_, fun d' _ hs => ?_, ?_, h.overridden⟩
  · rcases List.mem_append.mp htask with htask | htask
    · exact (h.left task htask).2 t ht
    rw [List.mem_singleton.mp htask] at ht
    split at ht
    case isTrue => exact List.mem_singleton.mp ht ▸ hwhole
    case isFalse hne =>
      obtain ⟨i, hi, rfl⟩ := List.mem_map.mp ht
      split at hint
      case isTrue hg =>
        obtain ⟨m, hm, rfl, hgo⟩ := hint.2 i hi
        have hs : w.standing (some m.group) = false := by
          by_contra hs
          have hstop := h.group d hd hg m.group (by simpa using hs) m hm rfl
          simp [hgo m hm rfl] at hstop
        exact hs
      case isFalse => exact absurd hint hne
  · obtain rfl : d = d' := Option.some.inj (hd.symm.trans hd')
    rcases List.mem_append.mp htask with htask | htask
    · exact h.targets d hd hg task htask
    rw [if_pos hg] at hint
    rw [List.mem_singleton.mp htask, if_neg hint.1]
    simp
  · cases hserved.symm.trans hs
  · simp [Watch.spawn, h.unserved, hserved]

theorem Good.visit (h : w.Good) (hnow : 0 < now) (hd : w.deployment = some d) :
    (w.visit d now).Good := by
  unfold Watch.visit
  split
  case isTrue hst =>
    refine ⟨⟨h.paced.budget, h.paced.spacing, h.paced.positive, by simp, by simp, h.paced.quiet⟩,
      ⟨h.alone.single, h.alone.inflight⟩, ⟨h.minded.whole, h.minded.group, h.minded.left,
        h.minded.targets, fun d' hd' hs => ?_, h.minded.unserved, h.minded.overridden⟩⟩
    exact (h.minded.served d' hd' hs).imp_left fun hno => ⟨rfl, hno.2⟩
  case isFalse hst =>
    split
    case isTrue hserv =>
      have hnil := h.paced.quiet d hd hserv
      refine ⟨⟨h.paced.budget, h.paced.spacing, h.paced.positive, by simp [hnil], by simp [hnil],
        h.paced.quiet⟩, ⟨h.alone.single, h.alone.inflight⟩, ⟨h.minded.whole, h.minded.group,
        h.minded.left, h.minded.targets, fun d' hd' hs => ?_, h.minded.unserved,
        h.minded.overridden⟩⟩
      obtain rfl : d = d' := Option.some.inj (hd.symm.trans hd')
      exact (h.minded.served d hd hs).imp_left fun hno => absurd hserv (by simp [hno.2])
    case isFalse hserv =>
      split
      · exact h
      case isFalse hel =>
        simp only [not_or, Bool.not_eq_false] at hel
        split
        · exact h
        split
        · exact h
        split
        · exact h
        case isFalse hin =>
          split
          case h_1 => exact h
          case h_2 is his =>
            split
            · exact h
            case isFalse htried =>
              split
              · exact h
              case isFalse hwait =>
                have hst' : d.stopped = false := by simpa using hst
                have hin' : w.inflight = false := by simpa using hin
                exact ⟨h.paced.spawn hnow hd (by simpa using hserv) hel.2 (by omega)
                  (by simpa using hwait) is, h.alone.spawn hd hin' is,
                  h.minded.spawn hd hst' hel.2 his⟩

theorem Good.sweep (h : w.Good) (hd : w.deployment = none) : w.sweep.Good := by
  unfold Watch.sweep
  split
  · exact ⟨⟨h.paced.budget, h.paced.spacing, h.paced.positive, by simp, by simp, by simp [hd]⟩,
      ⟨h.alone.single, by simp [hd]⟩, ⟨h.minded.whole, h.minded.group, h.minded.left,
        h.minded.targets, by simp [hd], h.minded.unserved, h.minded.overridden⟩⟩
  · exact h

theorem Good.tick (h : w.Good) (hnow : 0 < now) : (w.tick now).Good := by
  unfold Watch.tick
  split
  case h_1 d hd => exact h.visit hnow hd
  case h_2 hd => exact h.sweep hd

/-! ## Observations -/

/-- `e` has the intent and the groups of `d`. -/
structure Keeps (e d : Deployment) : Prop where
  grouped : e.grouped = d.grouped
  stopped : e.stopped = d.stopped
  members : ∀ m ∈ e.members, ∃ n ∈ d.members, n.group = m.group ∧ n.stopped = m.stopped

theorem Keeps.rfl : Keeps d d := ⟨by rfl, by rfl, fun m hm => ⟨m, hm, by rfl, by rfl⟩⟩

/-- That a deployment stands stopped is a matter of its groups and of the stops. -/
theorem AllStopped.of_groups {e : Deployment} (h : w.AllStopped d) (hg : e.grouped = d.grouped)
    (hm : ∀ m ∈ e.members, ∃ n ∈ d.members, n.group = m.group)
    (hst : ∀ t, w.standing t → w'.standing t) : w'.AllStopped e := by
  unfold AllStopped at h ⊢
  rw [hg]
  split at h
  case isTrue hgr =>
    rw [if_pos hgr]
    intro m hmem
    obtain ⟨n, hn, hgroup⟩ := hm m hmem
    exact hgroup ▸ hst _ (h n hn)
  case isFalse hgr =>
    rw [if_neg hgr]
    exact hst none h

variable {rec : Option Deployment}

/-- The record and the runtime table may change, as long as the intent stays and nothing is read as
serving that was not. -/
theorem Good.reread (h : w.Good) {o : Option Observed}
    (hrec : ∀ e ∈ rec, ∃ d ∈ w.deployment, Keeps e d ∧ (({ w with runtime := o, deployment := rec }.reading e).serving → (w.reading d).serving)) :
    { w with runtime := o, deployment := rec }.Good := by
  refine ⟨⟨h.paced.budget, h.paced.spacing, h.paced.positive, h.paced.counted, h.paced.stamped,
    fun e he hserv => ?_⟩, ⟨h.alone.single, fun hne hsome => ?_⟩, ⟨fun e he hst => ?_,
    fun e he hg i hst m hm hmi => ?_, h.minded.left, fun e he hg => ?_, fun e he hs => ?_,
    h.minded.unserved, h.minded.overridden⟩⟩
  · obtain ⟨d, hd, -, hread⟩ := hrec e he
    exact h.paced.quiet d hd (hread hserv)
  · obtain ⟨e, he⟩ := Option.isSome_iff_exists.mp hsome
    obtain ⟨d, hd, -⟩ := hrec e he
    exact h.alone.inflight hne (by simp [Option.mem_def.mp hd])
  · obtain ⟨d, hd, hk, -⟩ := hrec e he
    exact hk.stopped.trans (h.minded.whole d hd hst)
  · obtain ⟨d, hd, hk, -⟩ := hrec e he
    obtain ⟨n, hn, hgroup, hstop⟩ := hk.members m hm
    exact hstop ▸ h.minded.group d hd (hk.grouped ▸ hg) i hst n hn (hgroup.trans hmi)
  · obtain ⟨d, hd, hk, -⟩ := hrec e he
    exact h.minded.targets d hd (hk.grouped ▸ hg)
  · obtain ⟨d, hd, hk, hread⟩ := hrec e he
    rcases h.minded.served d hd hs with ⟨hno, hserv⟩ | hall
    · refine .inl ⟨hno, ?_⟩
      by_contra hserv'
      exact absurd (hread (by simpa using hserv')) (by simp [hserv])
    · refine .inr (hall.of_groups hk.grouped (fun m hm => ?_) fun _ => id)
      obtain ⟨n, hn, hgroup, -⟩ := hk.members m hm
      exact ⟨n, hn, hgroup⟩

/-- An observation. -/
theorem Good.noted (h : w.Good) {o : Option Observed}
    (hrec : ∀ e ∈ rec, ∃ d ∈ w.deployment, Keeps e d) :
    { w with runtime := o, deployment := rec }.note.Good := by
  unfold note
  split
  case h_2 => exact h.reread fun e he => by simp_all
  case h_1 e he =>
    obtain rfl : rec = some e := he
    obtain ⟨d, hd, hk⟩ := hrec e rfl
    split
    case isTrue hserv =>
      refine ⟨⟨Nat.zero_le _, .nil, by simp, fun _ => Nat.zero_le _, by simp, fun _ _ _ => rfl⟩,
        ⟨h.alone.single, fun hne _ => h.alone.inflight hne (by simp [Option.mem_def.mp hd])⟩, ?_⟩
      refine ⟨fun e' he' hst => ?_, fun e' he' hg i hst m hm hmi => ?_, h.minded.left,
        fun e' he' hg => ?_, fun _ _ hs => by simp at hs, h.minded.unserved, h.minded.overridden⟩
      · obtain rfl : e = e' := Option.some.inj he'
        exact hk.stopped.trans (h.minded.whole d hd hst)
      · obtain rfl : e = e' := Option.some.inj he'
        obtain ⟨n, hn, hgroup, hstop⟩ := hk.members m hm
        exact hstop ▸ h.minded.group d hd (hk.grouped ▸ hg) i hst n hn (hgroup.trans hmi)
      · obtain rfl : e = e' := Option.some.inj he'
        exact h.minded.targets d hd (hk.grouped ▸ hg)
    case isFalse hserv =>
      refine h.reread fun e' he' => ⟨d, hd, ?_⟩
      obtain rfl : e = e' := Option.some.inj he'
      exact ⟨hk, fun hserv' => absurd hserv' hserv⟩

theorem Good.saved (h : w.Good) {status : Status} {down : Member → Bool}
    (hs : w.saved status down = some w') : w'.Good := by
  unfold Watch.saved at hs
  split at hs
  case h_1 => cases hs
  case h_2 d hd =>
    cases hs
    have hkeeps : Keeps { d with
        status := status, members := d.members.map fun m => { m with down := down m } } d := by
      refine ⟨rfl, rfl, fun m hm => ?_⟩
      obtain ⟨n, hn, rfl⟩ := List.mem_map.mp hm
      exact ⟨n, hn, rfl, rfl⟩
    split
    case isTrue hpub =>
      refine h.reread (o := w.runtime) fun e he => ⟨d, hd, ?_⟩
      cases he
      obtain ⟨st, hst⟩ := Option.isSome_iff_exists.mp hpub
      exact ⟨hkeeps, by simp [reading, hst]⟩
    case isFalse =>
      refine h.noted (o := w.runtime) fun e he => ⟨d, hd, ?_⟩
      cases he
      exact hkeeps

theorem Good.settings (h : w.Good) {error : Bool} (hs : w.settings error = some w') : w'.Good := by
  unfold Watch.settings at hs
  split at hs
  case h_1 => cases hs
  case h_2 d hd =>
    cases hs
    refine h.reread (o := w.runtime) fun e he => ⟨d, hd, ?_⟩
    cases he
    exact ⟨⟨rfl, rfl, fun m hm => ⟨m, hm, rfl, rfl⟩⟩, id⟩

theorem good_create (hs : w.create d = some w') : w'.Good := by
  obtain ⟨_, hs⟩ := Option.ite_none_left_eq_some.mp hs
  cases hs
  -- Before its status is read the deployment does not serve.
  have hfresh : ∀ f : Option ℕ → Bool, f none = d.stopped →
      (∀ i, f (some i) = d.members.all fun m => m.group ≠ i ∨ m.stopped) → { unused with
      deployment := some { d with status := .other }
      used := true
      standing := f }.Good := by
    intro f hnone hsome
    refine ⟨⟨Nat.zero_le _, .nil, by simp [unused], by simp [unused], by simp [unused],
      fun _ _ _ => rfl⟩, ⟨Nat.zero_le _, by simp [unused]⟩, ⟨fun e he hst => ?_,
      fun e he _ i hst m hm hmi => ?_, by simp [unused], by simp [unused], fun e he _ => ?_,
      rfl, rfl⟩⟩
    · cases he
      exact hnone.symm.trans hst
    · cases he
      have hall := List.all_eq_true.mp ((hsome i).symm.trans hst) m hm
      simpa [hmi] using hall
    · cases he
      exact .inl ⟨rfl, rfl⟩
  have hkeeps : ∀ e ∈ some d, ∃ d' ∈ some { d with status := Status.other }, Keeps e d' := by
    intro e he
    cases he
    exact ⟨_, rfl, rfl, rfl, fun m hm => ⟨m, hm, rfl, rfl⟩⟩
  exact (hfresh _ rfl fun _ => rfl).noted (o := none) hkeeps

/-! ## Starts and stops -/

variable {m : Member}

theorem mem_recordGroup {i : ℕ} {stop : Bool} (h : m ∈ (d.recordGroup i stop).members) :
    ∃ n ∈ d.members, n.group = m.group ∧
      if m.group = i then m.stopped = stop else n.stopped → m.stopped := by
  obtain ⟨n, hn, rfl⟩ := List.mem_map.mp h
  refine ⟨n, hn, ?_⟩
  by_cases hni : n.group = i
  · simp [hni]
  · simp only [if_neg hni, true_and]
    intro hst
    simp [hst]

variable {t : Target}

theorem groups_recordStart (h : m ∈ (d.recordStart t).members) :
    ∃ n ∈ d.members, n.group = m.group := by
  cases t with
  | none =>
    obtain ⟨n, hn, rfl⟩ := List.mem_map.mp h
    exact ⟨n, hn, rfl⟩
  | some i =>
    obtain ⟨n, hn, hgroup, -⟩ := mem_recordGroup h
    exact ⟨n, hn, hgroup⟩

theorem groups_recordStop (h : m ∈ (d.recordStop t).members) :
    ∃ n ∈ d.members, n.group = m.group := by
  cases t with
  | none =>
    simp only [Deployment.recordStop] at h
    split at h
    · obtain ⟨n, hn, rfl⟩ := List.mem_map.mp h
      exact ⟨n, hn, rfl⟩
    · exact ⟨m, h, rfl⟩
  | some i =>
    obtain ⟨n, hn, hgroup, -⟩ := mem_recordGroup h
    exact ⟨n, hn, hgroup⟩

@[simp] theorem grouped_recordStart (t : Target) : (d.recordStart t).grouped = d.grouped := by
  cases t <;> rfl

@[simp] theorem status_recordStart (t : Target) : (d.recordStart t).status = d.status := by
  cases t <;> rfl

@[simp] theorem grouped_recordStop (t : Target) : (d.recordStop t).grouped = d.grouped := by
  cases t <;> rfl

theorem serving_recordStop {o : Option Status}
    (h : (o.getD (d.recordStop t).status).serving) : (o.getD d.status).serving := by
  cases o with
  | some st => exact h
  | none =>
    cases t with
    | none => simp [Deployment.recordStop, Status.serving] at h
    | some i => exact h

/-- A start of group `j` is recorded, and the stops that stand are among those that stood, but for
the one of `j`. -/
theorem group_recordStart (h : w.Minded) (hd : w.deployment = some d) (hg : d.grouped)
    {i j : ℕ} (hij : i ≠ j) (hst : w.standing (some i))
    (hm : m ∈ (d.recordStart (some j)).members) (hmi : m.group = i) : m.stopped := by
  obtain ⟨n, hn, hgroup, hst'⟩ := mem_recordGroup hm
  rw [if_neg (fun hmj => hij (hmi.symm.trans hmj))] at hst'
  exact hst' (h.group d hd hg i hst n hn (hgroup.trans hmi))

/-- A stop of the user, while no restart task has a start of its target left. -/
theorem Good.stop (h : w.Good) (hnone : t = none → w.tasks = [])
    (hleft : ∀ task ∈ w.tasks, t ∉ task) (hs : w.stop t = some w') : w'.Good := by
  unfold Watch.stop at hs
  split at hs
  case h_1 => cases hs
  case h_2 d hd =>
    obtain ⟨hacc, rfl⟩ := guard_some hs
    refine ⟨⟨h.paced.budget, h.paced.spacing, h.paced.positive, h.paced.counted, h.paced.stamped,
      fun e he hserv => ?_⟩, ⟨h.alone.single, fun hne _ => h.alone.inflight hne (by simp [hd])⟩,
      ⟨fun e he hst => ?_, fun e he hg i hst m hm hmi => ?_, fun task htask => ?_,
        fun e he hg => ?_, fun e he hs => ?_, h.minded.unserved, h.minded.overridden⟩⟩
    · cases he
      exact h.paced.quiet d hd (serving_recordStop hserv)
    · cases he
      cases t with
      | none => rfl
      | some j => exact h.minded.whole d hd (by simpa using hst)
    · cases he
      rw [grouped_recordStop] at hg
      cases t with
      | none =>
        simp only [Deployment.recordStop, if_pos hg] at hm
        obtain ⟨n, -, rfl⟩ := List.mem_map.mp hm
        rfl
      | some j =>
        obtain ⟨n, hn, hgroup, hst'⟩ := mem_recordGroup hm
        split at hst'
        case isTrue => exact hst'
        case isFalse hne =>
          have hij : i ≠ j := fun hij => hne (hmi.trans hij)
          exact hst' (h.minded.group d hd hg i (by simpa [hij] using hst) n hn (hgroup.trans hmi))
    · have hold := h.minded.left task htask
      have ht : t ≠ none := fun ht => by simp [hnone ht] at htask
      refine ⟨by simp [hold.1, ht, ht.symm], fun x hx => ?_⟩
      have hxt : x ≠ t := fun hxt => hleft task htask (hxt ▸ hx)
      simp [hold.2 x hx, ht, hxt]
    · cases he
      exact h.minded.targets d hd (by simpa using hg)
    · cases he
      simp only [Bool.and_eq_false_iff, Bool.not_eq_false', decide_eq_true_eq] at hs
      rcases hs with hs | hall
      · rcases h.minded.served d hd hs with ⟨hno, hserv⟩ | hall
        · refine .inl ⟨hno, ?_⟩
          refine Bool.eq_false_of_not_eq_true fun hserv' => ?_
          have hserving : (w.reading d).serving := serving_recordStop hserv'
          simp [hserving] at hserv
        · refine .inr (hall.of_groups (grouped_recordStop t) (fun m hm => groups_recordStop hm) ?_)
          intro x hx
          simp [hx]
      · exact .inr (hall.of_groups (grouped_recordStop t) (fun m hm => groups_recordStop hm)
          fun _ => id)

/-- A start of the user: of a deployment that was observed serving, or of one that the tick takes for
one that was not. -/
theorem Good.start (h : w.Good)
    (hclean : w.served = false →
      w.healthySeen = false ∧ ∀ d ∈ w.deployment, (w.reading d).serving = false)
    (hs : w.start t = some w') : w'.Good := by
  unfold Watch.start at hs
  split at hs
  case h_1 => cases hs
  case h_2 d hd =>
    obtain ⟨hacc, rfl⟩ := guard_some hs
    refine ⟨⟨h.paced.budget, h.paced.spacing, h.paced.positive, h.paced.counted, h.paced.stamped,
      fun e he hserv => ?_⟩, ⟨h.alone.single, fun hne _ => h.alone.inflight hne (by simp [hd])⟩,
      ⟨fun e he hst => ?_, fun e he hg i hst m hm hmi => ?_, fun task htask => ?_,
        fun e he hg => ?_, fun e he hs => ?_, h.minded.unserved, h.minded.overridden⟩⟩
    · cases he
      exact h.paced.quiet d hd (by simpa [reading] using hserv)
    · simp at hst
    · cases he
      rw [grouped_recordStart] at hg
      cases t with
      | none => simp at hst
      | some j =>
        simp only [Bool.and_eq_true, Bool.not_eq_true', decide_eq_false_iff_not, not_or,
          Option.some.injEq] at hst
        exact group_recordStart h.minded hd hg hst.2.2.2 hst.1 hm hmi
    · have hold := h.minded.left task htask
      exact ⟨by simp, fun x hx => by simp [hold.2 x hx]⟩
    · cases he
      exact h.minded.targets d hd (by simpa using hg)
    · cases he
      obtain ⟨hno, hserv⟩ := hclean hs
      exact .inl ⟨hno, by simpa [reading] using hserv d hd⟩

/-! ## The restart tasks -/

theorem Good.done (h : w.Good) {k : ℕ} (hk : k < w.tasks.length) : (w.done k).Good := by
  have hnil : w.tasks.eraseIdx k = [] := by
    rw [← List.length_eq_zero_iff, List.length_eraseIdx_of_lt hk]
    have := h.alone.single
    omega
  refine ⟨⟨h.paced.budget, h.paced.spacing, h.paced.positive, h.paced.counted, h.paced.stamped,
    h.paced.quiet⟩, ⟨?_, fun hne => absurd hnil hne⟩, ⟨h.minded.whole, h.minded.group, ?_, ?_,
    h.minded.served, h.minded.unserved, h.minded.overridden⟩⟩
  · simp [Watch.done, hnil]
  · simp [Watch.done, hnil]
  · simp [Watch.done, hnil]

/-- A start of a restart task is recorded. -/
theorem Good.restart (h : w.Good) (hd : w.deployment = some d) {task : Task}
    (htask : task ∈ w.tasks) (ht : t ∈ task) :
    { w with deployment := some (d.recordStart t) }.Good := by
  obtain ⟨hwhole, hleft⟩ := h.minded.left task htask
  refine ⟨⟨h.paced.budget, h.paced.spacing, h.paced.positive, h.paced.counted, h.paced.stamped,
    fun e he hserv => ?_⟩, ⟨h.alone.single, fun hne _ => h.alone.inflight hne (by simp [hd])⟩,
    ⟨fun e he hst => ?_, fun e he hg i hst m hm hmi => ?_, h.minded.left,
      fun e he hg => ?_, fun e he hs => ?_, h.minded.unserved, h.minded.overridden⟩⟩
  · cases he
    exact h.paced.quiet d hd (by simpa [reading] using hserv)
  · simp [hwhole] at hst
  · cases he
    rw [grouped_recordStart] at hg
    cases t with
    | none => exact absurd ht (h.minded.targets d hd hg task htask)
    | some j =>
      have hij : i ≠ j := by
        rintro rfl
        simp [hleft _ ht] at hst
      exact group_recordStart h.minded hd hg hij hst hm hmi
  · cases he
    exact h.minded.targets d hd (by simpa using hg)
  · cases he
    rcases h.minded.served d hd hs with ⟨hno, hserv⟩ | hall
    · exact .inl ⟨hno, by simpa [reading] using hserv⟩
    · exact .inr (hall.of_groups (grouped_recordStart t) (fun m hm => groups_recordStart hm)
        fun _ => id)

theorem Good.proceed (h : w.Good) {k : ℕ} {rest : List Target}
    (hk : w.tasks[k]? = some (t :: rest)) : (w.proceed k rest).Good := by
  obtain ⟨hlt, hget⟩ := List.getElem?_eq_some_iff.mp hk
  have hmem : t :: rest ∈ w.tasks := List.mem_of_getElem? hk
  cases rest with
  | nil => exact h.done hlt
  | cons u rest =>
    have hsub : ∀ task ∈ w.tasks.set k (u :: rest), ∃ old ∈ w.tasks, ∀ x ∈ task, x ∈ old := by
      intro task htask
      rcases List.mem_or_eq_of_mem_set htask with hold | rfl
      · exact ⟨task, hold, fun _ => id⟩
      · exact ⟨_, hmem, fun x hx => List.mem_cons_of_mem _ hx⟩
    refine ⟨⟨h.paced.budget, h.paced.spacing, h.paced.positive, h.paced.counted, h.paced.stamped,
      h.paced.quiet⟩, ⟨?_, fun _ => h.alone.inflight (List.ne_nil_of_mem hmem)⟩, ⟨h.minded.whole,
      h.minded.group, fun task htask => ?_, fun d hd hg task htask => ?_, h.minded.served,
      h.minded.unserved, h.minded.overridden⟩⟩
    · exact (List.length_set ..).trans_le h.alone.single
    · obtain ⟨old, hold, hin⟩ := hsub task htask
      exact ⟨(h.minded.left old hold).1, fun x hx => (h.minded.left old hold).2 x (hin x hx)⟩
    · obtain ⟨old, hold, hin⟩ := hsub task htask
      exact fun hx => h.minded.targets d hd hg old hold (hin none hx)

theorem Good.issue (h : w.Good) {k : ℕ} {r : Result} (hs : w.issue k r = some w') : w'.Good := by
  unfold Watch.issue at hs
  split at hs
  case h_2 => cases hs
  case h_1 t rest hk =>
    obtain ⟨hlt, hget⟩ := List.getElem?_eq_some_iff.mp hk
    have hmem : t :: rest ∈ w.tasks := List.mem_of_getElem? hk
    have hin : t ∈ t :: rest := List.mem_cons_self
    have hstands : (w.overridden || w.standing t) = w.overridden := by
      rw [(h.minded.left _ hmem).2 t hin, Bool.or_false]
    simp only [hstands] at hs
    split at hs
    case h_1 | h_2 =>
      cases hs
      exact h.done hlt
    case h_3 d hd =>
      cases hs
      exact (h.restart hd hmem hin).done hlt
    case h_4 d hd =>
      cases hs
      exact (h.restart hd hmem hin).proceed hk

end Watch

/-! ## The world -/

/-- **One step.** -/
theorem good_step {g g' : World D} {e : Label D} (h : ∀ id, (g.watch id).Good) (hc : Clean g e)
    (hs : step g e = some g') : ∀ id, (g'.watch id).Good := by
  have hput : ∀ {id : D} {w : Watch}, w.Good → ∀ x, ((g.put id w).watch x).Good := by
    intro id w hw x
    by_cases hx : x = id
    · subst hx
      simpa [World.put] using hw
    · simpa [World.put, hx] using h x
  cases e with
  | create id d =>
    obtain ⟨w, hw, rfl⟩ := Option.map_eq_some_iff.mp hs
    exact hput (Watch.good_create hw)
  | remove id =>
    obtain ⟨_, rfl⟩ := guard_some hs
    exact hput ((h id).reread (o := (g.watch id).runtime) (by simp))
  | observe id o =>
    cases hs
    exact hput ((h id).noted (o := some o) fun e he => ⟨e, he, Watch.Keeps.rfl⟩)
  | saved id status down =>
    obtain ⟨w, hw, rfl⟩ := Option.map_eq_some_iff.mp hs
    exact hput ((h id).saved hw)
  | settings id error =>
    obtain ⟨w, hw, rfl⟩ := Option.map_eq_some_iff.mp hs
    exact hput ((h id).settings hw)
  | stop id t =>
    obtain ⟨w, hw, rfl⟩ := Option.map_eq_some_iff.mp hs
    cases t with
    | none =>
      have hnil : (g.watch id).tasks = [] := hc
      exact hput ((h id).stop (fun _ => hnil) (by simp [hnil]) hw)
    | some i => exact hput ((h id).stop (by simp) hc hw)
  | start id t =>
    obtain ⟨w, hw, rfl⟩ := Option.map_eq_some_iff.mp hs
    exact hput ((h id).start hc hw)
  | tick now =>
    obtain ⟨hnow, rfl⟩ := guard_some hs
    exact fun id => (h id).tick hnow.1
  | issue id k r =>
    obtain ⟨w, hw, rfl⟩ := Option.map_eq_some_iff.mp hs
    exact hput ((h id).issue hw)
  | cancel id k =>
    obtain ⟨hk, rfl⟩ := guard_some hs
    exact hput ((h id).done hk)

/-- **Crash restart.** -/
theorem restarts_respect {g : World D} (h : Reach step Clean .init g) (id : D) :
    (g.watch id).Respects := by
  have hgood : ∀ id, (g.watch id).Good :=
    Reach.invariant (P := fun g => ∀ id, (g.watch id).Good) h (fun _ => Watch.good_unused)
      fun _ _ _ ha hc hs => good_step ha hc hs
  exact (hgood id).respects

/-- A deployment on one node, as it is saved while it serves. -/
def oneNode : Deployment := ⟨false, 1, [⟨0, false, false⟩], false, .running, false⟩

/-- Two engine groups. -/
def twoGroups : Deployment :=
  ⟨true, 2, [⟨0, false, false⟩, ⟨1, false, false⟩], false, .running, false⟩

/-- It crashes, is restarted, crashes again, and is restarted after the delay; its user stops the
second group before the first start, and the tick before the delay does nothing. -/
def crashRun : List (Label Unit) :=
  [.create () twoGroups, .tick 1, .stop () (some 1), .observe () ⟨some .stopped, true⟩, .tick 3,
    .issue () 0 .ok, .observe () ⟨some .error, true⟩, .tick 6, .tick 9, .issue () 0 .failed]

theorem restarts_respect_crash :
    ∃ g : World Unit, Reach step Clean .init g ∧ (g.watch ()).episode = [9, 3] ∧
      (g.watch ()).tasks = [] ∧ (g.watch ()).Respects := by
  have hrun : (replay step Clean (.init : World Unit) crashRun).any
      (fun g => decide ((g.watch ()).episode = [9, 3] ∧ (g.watch ()).tasks = [])) = true := by
    decide +kernel
  obtain ⟨g, hr, hg⟩ := reach_any hrun
  obtain ⟨hep, htasks⟩ := of_decide_eq_true hg
  exact ⟨g, hr, hep, htasks, restarts_respect hr ()⟩

/-- Between two ticks the user stops a deployment and starts it again; it does not come up. -/
def bouncedRun : List (Label Unit) :=
  [.create () oneNode, .observe () ⟨some .running, true⟩, .tick 1, .stop () none, .start () none,
    .observe () ⟨some .stopped, true⟩, .tick 2]

/-- The launch, which never served, is restarted; and a task that starts the groups one by one
starts a group that was stopped meanwhile. -/
theorem unserved_restarted :
    (∃ g : World Unit, Reach step Free .init g ∧ (g.watch ()).unserved = true ∧
      ¬(g.watch ()).Respects) ∧
    ∃ g : World Unit, Reach step Free .init g ∧ (g.watch ()).overridden = true ∧
      ¬(g.watch ()).Respects := by
  have hbounced : (replay step Free (.init : World Unit) bouncedRun).any
      (fun g => (g.watch ()).unserved) = true := by decide +kernel
  have hstopped : (replay step Free (.init : World Unit)
      [.create () twoGroups, .tick 1, .observe () ⟨some .stopped, true⟩, .tick 3, .issue () 0 .ok,
        .stop () (some 1), .issue () 0 .ok]).any (fun g => (g.watch ()).overridden) = true := by
    decide +kernel
  constructor
  · obtain ⟨g, hr, hg⟩ := reach_any hbounced
    exact ⟨g, hr, hg, fun hresp => by simp [hresp.served] at hg⟩
  · obtain ⟨g, hr, hg⟩ := reach_any hstopped
    exact ⟨g, hr, hg, fun hresp => by simp [hresp.intent] at hg⟩

end SparkDeck.CrashRetry
