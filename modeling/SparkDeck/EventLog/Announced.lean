import Mathlib.Data.List.Induction
import SparkDeck.EventLog.Observe

/-!
# Launches and losses are announced once

What a turn does for one key depends only on the last state of that key (`step_spec`): it is the
state that `Turn.effect` computes, and the events that it logs for the key are `Turn.effect`'s.

* `Announced`, for every run (`announced`): a launch is announced again only after a loss, a
  recreation or a status that the observer does not know; a loss only after the key was seen alive;
  and a launched key that is seen to have ended is announced to have.
* a pass that hides a key changes nothing for it (`announced`, second part).
-/

namespace SparkDeck.EventLog

open Transcript

/-- The last process state of a key. -/
abbrev Last := Option (Status × String)

def last (s : State) (k : Key) : Last := Assoc.get s.states k

/-- The lifecycle events logged for a key. -/
def eventsOf (k : Key) (out : List Record) : List Event :=
  out.filterMap fun r => if r.key = k then r.event else none

def Turn.sight (k : Key) : Turn → Option Sight
  | .group d g runtime => if (d.id, g.instanceId) = k then sightOf d g runtime else none
  | _ => none

def Turn.Sees (t : Turn) (k : Key) (p : Sight → Prop) : Prop := ∃ w, t.sight k = some w ∧ p w

/-- A process of which all is known: neither of a status that the observer has no rule for. -/
def Status.known (status : Status) : Bool :=
  status.alive || status = .stopped || status = .error

def Last.running (previous : Last) : Bool := previous.any fun p => p.1 = .running

def Last.alive (previous : Last) : Bool := previous.any fun p => p.1.alive

/-- The next state of a process that is seen, and the event of it. -/
def advance (previous : Last) (w : Sight) : Last × Option Event :=
  if w.status ≠ .running ∧ w.lost ∧ previous.running then
    (some (.crashed, w.error), some .crashed)
  else if previous.running = true ∧ w.status.wobble = true ∧ w.recreating = false then
    (previous, none)
  else if previous = some (w.status, w.error) then
    (previous, none)
  else
    (some (w.status, w.error), (eventOf previous w.status w.desired).map Prod.fst)

/-- A key that is not in the inventory any more. -/
def remove (previous : Last) : Last × Option Event :=
  (none, if previous.alive then some .stopped else none)

def Turn.effect (k : Key) (previous : Last) : Turn → Last × Option Event
  | .retire present => if k.1 ∈ present then (previous, none) else remove previous
  | .parent _ => (previous, none)
  | .group d g runtime =>
    match (Turn.group d g runtime).sight k with
    | none => (previous, none)
    | some w => advance previous w

/-! ## A turn, key by key -/

section Step

variable {s : State} {k key : Key} {name error : String} {carried : Bool} {out out' : List Record}

theorem eventsOf_append : eventsOf k (out ++ out') = eventsOf k out ++ eventsOf k out' :=
  List.filterMap_append

theorem last_noteError : last (noteError s key name error carried).1 k = last s k := by
  unfold noteError last
  split <;> rfl

theorem eventsOf_noteError : eventsOf k (noteError s key name error carried).2 = [] := by
  unfold noteError eventsOf
  dsimp only
  split
  · simp
  · rfl

theorem last_set {a : Status × String} {errors : List (Key × String)} :
    last ⟨Assoc.set s.states key a, errors⟩ k = if key = k then some a else last s k := by
  unfold last
  split
  case isTrue h => rw [h, Assoc.get_set_self]
  case isFalse h => rw [Assoc.get_set_ne (Ne.symm h)]

theorem eventsOf_record {level : Level} {event : Option Event} {message : String} :
    eventsOf k [⟨key, level, event, message⟩] = if key = k then event.toList else [] := by
  unfold eventsOf
  split
  case isTrue h =>
    cases event with
    | none => simp
    | some e => simp [h]
  case isFalse h => simp [h]

theorem eventsOf_map {event : Option (Event × Level)} {message : Event × Level → String} :
    eventsOf k (event.toList.map fun e => ⟨key, e.2, some e.1, message e⟩) =
      if key = k then (event.map Prod.fst).toList else [] := by
  cases event with
  | none => simp [eventsOf]
  | some e => exact eventsOf_record

/-- A process is observed as `advance` says. -/
theorem observeProcess_spec {w : Sight} :
    last (observeProcess s key name w).1 key = (advance (last s key) w).1 ∧
    eventsOf key (observeProcess s key name w).2 = (advance (last s key) w).2.toList := by
  rw [show last s key = Assoc.get s.states key from rfl]
  unfold observeProcess advance Last.running
  -- the branches of `advance` are those of the source
  by_cases hlost : w.status ≠ .running ∧ w.lost ∧
      (Assoc.get s.states key).any (fun p => p.1 = .running) = true
  · rw [if_pos hlost, if_pos hlost]
    exact ⟨last_set.trans (if_pos rfl), eventsOf_record.trans (if_pos rfl)⟩
  rw [if_neg hlost, if_neg hlost]
  by_cases hwobble : (Assoc.get s.states key).any (fun p => p.1 = .running) = true ∧
      w.status.wobble = true ∧ w.recreating = false
  · rw [if_pos hwobble, if_pos hwobble]
    exact ⟨last_noteError, eventsOf_noteError⟩
  rw [if_neg hwobble, if_neg hwobble]
  by_cases hsame : Assoc.get s.states key = some (w.status, w.error)
  · rw [if_pos hsame, if_pos hsame]
    exact ⟨last_noteError, eventsOf_noteError⟩
  · rw [if_neg hsame, if_neg hsame]
    refine ⟨last_set.trans (if_pos rfl), ?_⟩
    rw [eventsOf_append, eventsOf_noteError, List.nil_append, eventsOf_map, if_pos rfl]

/-- It is observed for its own key only. -/
theorem observeProcess_frame {w : Sight} (h : key ≠ k) :
    last (observeProcess s key name w).1 k = last s k ∧
    eventsOf k (observeProcess s key name w).2 = [] := by
  unfold observeProcess
  dsimp only
  split
  · exact ⟨last_set.trans (if_neg h), eventsOf_record.trans (if_neg h)⟩
  split
  · exact ⟨last_noteError, eventsOf_noteError⟩
  split
  · exact ⟨last_noteError, eventsOf_noteError⟩
  · refine ⟨last_set.trans (if_neg h), ?_⟩
    rw [eventsOf_append, eventsOf_noteError, List.nil_append, eventsOf_map, if_neg h]

theorem observeGroup_spec (d : Deployment) (g : Group) (runtime : Cluster) :
    last (observeGroup s d g runtime).1 k = ((Turn.group d g runtime).effect k (last s k)).1 ∧
    eventsOf k (observeGroup s d g runtime).2 =
      ((Turn.group d g runtime).effect k (last s k)).2.toList := by
  unfold observeGroup Turn.effect Turn.sight
  dsimp only
  cases sightOf d g runtime with
  | none =>
    rw [ite_self]
    exact ⟨last_noteError, eventsOf_noteError⟩
  | some w =>
    by_cases hk : (d.id, g.instanceId) = k
    · rw [if_pos hk, hk]
      exact observeProcess_spec
    · rw [if_neg hk]
      exact observeProcess_frame hk

variable {present : List String}

theorem retireKey_self :
    last (retireKey present s k).1 k = ((Turn.retire present).effect k (last s k)).1 ∧
    eventsOf k (retireKey present s k).2 =
      ((Turn.retire present).effect k (last s k)).2.toList := by
  unfold retireKey Turn.effect remove
  dsimp only
  by_cases hp : k.1 ∈ present
  · rw [if_pos hp, if_pos hp]
    exact ⟨rfl, rfl⟩
  · rw [if_neg hp, if_neg hp]
    refine ⟨Assoc.get_erase_self, ?_⟩
    rw [show (last s k).alive = (Assoc.get s.states k).any fun p => p.1.alive from rfl]
    cases (Assoc.get s.states k).any fun p => p.1.alive with
    | true => exact eventsOf_record.trans (if_pos rfl)
    | false => rfl

theorem retireKey_frame (present : List String) (h : key ≠ k) :
    last (retireKey present s key).1 k = last s k ∧
    eventsOf k (retireKey present s key).2 = [] := by
  unfold retireKey
  split
  · exact ⟨rfl, rfl⟩
  · refine ⟨Assoc.get_erase_ne (Ne.symm h), ?_⟩
    split
    · exact eventsOf_record.trans (if_neg h)
    · rfl

/-- The loop of the removal leaves a key that it does not come to. -/
theorem retireKeys_frame (present : List String) {keys : List Key} (hk : k ∉ keys)
    (acc : State × List Record) :
    last (retireKeys present acc keys).1 k = last acc.1 k ∧
    eventsOf k (retireKeys present acc keys).2 = eventsOf k acc.2 := by
  induction keys generalizing acc with
  | nil => exact ⟨rfl, rfl⟩
  | cons key keys ih =>
    obtain ⟨hkey, hk⟩ := List.ne_and_not_mem_of_not_mem_cons hk
    obtain ⟨hlast, hevents⟩ := ih hk ((retireKey present acc.1 key).1,
      acc.2 ++ (retireKey present acc.1 key).2)
    obtain ⟨hlast', hevents'⟩ := retireKey_frame (s := acc.1) present (Ne.symm hkey)
    refine ⟨hlast.trans hlast', hevents.trans ?_⟩
    rw [eventsOf_append, hevents', List.append_nil]

/-- It comes once to each of the others. -/
theorem retireKeys_self {keys : List Key} (hnd : keys.Nodup) (hk : k ∈ keys)
    (acc : State × List Record) :
    let e := (Turn.retire present).effect k (last acc.1 k)
    last (retireKeys present acc keys).1 k = e.1 ∧
    eventsOf k (retireKeys present acc keys).2 = eventsOf k acc.2 ++ e.2.toList := by
  induction keys generalizing acc with
  | nil => exact absurd hk List.not_mem_nil
  | cons key keys ih =>
    obtain ⟨hkey, hnd⟩ := List.nodup_cons.mp hnd
    by_cases h : key = k
    · subst h
      obtain ⟨hlast, hevents⟩ := retireKeys_frame present hkey
        ((retireKey present acc.1 key).1, acc.2 ++ (retireKey present acc.1 key).2)
      refine ⟨hlast.trans retireKey_self.1, hevents.trans ?_⟩
      rw [eventsOf_append, retireKey_self.2]
    · obtain ⟨hlast, hevents⟩ := ih hnd (List.mem_of_ne_of_mem (Ne.symm h) hk)
        ((retireKey present acc.1 key).1, acc.2 ++ (retireKey present acc.1 key).2)
      obtain ⟨hlast', hevents'⟩ := retireKey_frame (s := acc.1) present h
      dsimp only at hlast hevents
      rw [hlast'] at hlast hevents
      rw [eventsOf_append, hevents', List.append_nil] at hevents
      exact ⟨hlast, hevents⟩

theorem retire_spec :
    last (retire present s).1 k = ((Turn.retire present).effect k (last s k)).1 ∧
    eventsOf k (retire present s).2 = ((Turn.retire present).effect k (last s k)).2.toList := by
  by_cases hk : k ∈ s.keys
  · exact retireKeys_self (List.nodup_dedup _) hk (s, [])
  · -- a key that is in no table has no last state, and there is nothing to remove
    have hnone : last s k = none := by
      cases hget : last s k with
      | none => rfl
      | some a =>
        have hmem : k ∈ s.states.map Prod.fst := List.mem_map_of_mem (Assoc.mem_of_get hget)
        exact absurd (List.mem_dedup.mpr (List.mem_append_left _ hmem)) hk
    have heffect : (Turn.retire present).effect k (last s k) = (last s k, none) := by
      rw [hnone]
      exact ite_self _
    rw [heffect]
    exact retireKeys_frame present hk (s, [])

/-- **A turn for one key.** -/
theorem step_spec (t : Turn) :
    last (step s t).1 k = (t.effect k (last s k)).1 ∧
    eventsOf k (step s t).2 = (t.effect k (last s k)).2.toList := by
  cases t with
  | retire present => exact retire_spec
  | parent d => exact ⟨last_noteError, eventsOf_noteError⟩
  | group d g runtime => exact observeGroup_spec d g runtime

end Step

/-! ## What a turn can do to a key -/

section Effect

variable {k : Key} {p q : Last} {w : Sight} {t : Turn} {e : Option Event}

theorem advance_cases (h : advance p w = (q, e)) :
    (w.status ≠ .running ∧ w.lost ∧ p.running ∧
      q = some (.crashed, w.error) ∧ e = some .crashed) ∨
    ((p.running ∧ w.status.wobble ∨ p = some (w.status, w.error)) ∧
      q = p ∧ e = none) ∨
    (¬ (w.status ≠ .running ∧ w.lost ∧ p.running) ∧
      ¬ (p.running = true ∧ w.status.wobble = true ∧ w.recreating = false) ∧
      q = some (w.status, w.error) ∧ e = (eventOf p w.status w.desired).map Prod.fst) := by
  unfold advance at h
  split at h
  case isTrue hlost =>
    cases h
    exact Or.inl ⟨hlost.1, hlost.2.1, hlost.2.2, rfl, rfl⟩
  case isFalse hlost =>
    split at h
    case isTrue hwobble =>
      cases h
      exact Or.inr (Or.inl ⟨Or.inl ⟨hwobble.1, hwobble.2.1⟩, rfl, rfl⟩)
    case isFalse hwobble =>
      split at h
      case isTrue hsame =>
        cases h
        exact Or.inr (Or.inl ⟨Or.inr hsame, rfl, rfl⟩)
      case isFalse =>
        cases h
        exact Or.inr (Or.inr ⟨hlost, hwobble, rfl, rfl⟩)

theorem effect_cases (h : t.effect k p = (q, e)) :
    (∃ w, t.sight k = some w ∧ advance p w = (q, e)) ∨
    (q = p ∧ e = none) ∨ (q = none ∧ e = if p.alive then some .stopped else none) := by
  cases t with
  | retire present =>
    unfold Turn.effect at h
    dsimp only at h
    split at h
    · cases h
      exact Or.inr (Or.inl ⟨rfl, rfl⟩)
    · cases h
      exact Or.inr (Or.inr ⟨rfl, rfl⟩)
  | parent d =>
    cases h
    exact Or.inr (Or.inl ⟨rfl, rfl⟩)
  | group d g runtime =>
    unfold Turn.effect at h
    dsimp only at h
    cases hw : (Turn.group d g runtime).sight k with
    | none =>
      rw [hw] at h
      cases h
      exact Or.inr (Or.inl ⟨rfl, rfl⟩)
    | some w =>
      rw [hw] at h
      exact Or.inl ⟨w, rfl, h⟩

theorem alive_of_running (h : p.running) : p.alive := by
  obtain ⟨a, ha, hrun⟩ := (Option.any_eq_true _ _).mp h
  refine (Option.any_eq_true _ _).mpr ⟨a, ha, ?_⟩
  rw [of_decide_eq_true hrun]
  rfl

def Loss (e : Event) : Prop := e = .crashed ∨ e = .stopped

theorem eventOf_cases {status : Status} {desired : Option Status} {e : Event}
    (h : (eventOf p status desired).map Prod.fst = some e) :
    (status = .running ∧ p.running = false ∧ e = .launched) ∨
    (status = .error ∧ e = if p.running then .crashed else .error) ∨
    (status = .stopped ∧ p.alive ∧ Loss e) := by
  unfold eventOf at h
  split at h
  case isTrue hrun => exact Or.inl ⟨hrun.1, Bool.eq_false_iff.mpr hrun.2, (Option.some.inj h).symm⟩
  case isFalse =>
    split at h
    case isTrue herror => exact Or.inr (Or.inl ⟨herror, (Option.some.inj h).symm⟩)
    case isFalse =>
      split at h
      case isTrue hstop =>
        refine Or.inr (Or.inr ⟨hstop.1, hstop.2, ?_⟩)
        split at h
        · exact Or.inl (Option.some.inj h).symm
        · exact Or.inr (Option.some.inj h).symm
      case isFalse => exact absurd h (Option.some_ne_none e).symm

theorem eventOf_error (desired : Option Status) :
    (eventOf p .error desired).map Prod.fst =
      some (if p.running then .crashed else .error) := by
  unfold eventOf
  rw [if_neg (fun h => absurd h.1 (by decide)), if_pos rfl]
  rfl

theorem eventOf_stopped (desired : Option Status) (hp : p.alive) :
    ∃ l, (eventOf p .stopped desired).map Prod.fst = some l ∧ Loss l := by
  unfold eventOf
  rw [if_neg (fun h => absurd h.1 (by decide)), if_neg (by decide), if_pos ⟨rfl, hp⟩]
  split
  · exact ⟨.crashed, rfl, Or.inl rfl⟩
  · exact ⟨.stopped, rfl, Or.inr rfl⟩

/-- A launch is announced of what was not running, and is running then. -/
theorem effect_launched (h : t.effect k p = (q, some .launched)) :
    p.running = false ∧ q.running = true := by
  obtain ⟨w, -, hw⟩ | ⟨-, he⟩ | ⟨-, he⟩ := effect_cases h
  · obtain ⟨-, -, -, -, he⟩ | ⟨-, -, he⟩ | ⟨-, -, rfl, he⟩ := advance_cases hw
    · cases he
    · cases he
    · obtain ⟨hrun, hp, -⟩ | ⟨-, he⟩ | ⟨-, -, hl⟩ := eventOf_cases he.symm
      · rw [hrun]
        exact ⟨hp, rfl⟩
      · split at he <;> cases he
      · exact absurd hl (by unfold Loss; decide)
  · cases he
  · split at he <;> cases he

/-- A loss is announced of what was alive, and is not alive then. -/
theorem effect_loss {l : Event} (hl : Loss l) (h : t.effect k p = (q, some l)) :
    p.alive = true ∧ q.alive = false := by
  obtain ⟨w, -, hw⟩ | ⟨-, he⟩ | ⟨rfl, he⟩ := effect_cases h
  · obtain ⟨-, -, hp, rfl, -⟩ | ⟨-, -, he⟩ | ⟨-, -, rfl, he⟩ := advance_cases hw
    · exact ⟨alive_of_running hp, rfl⟩
    · cases he
    · obtain ⟨-, -, rfl⟩ | ⟨hstatus, he⟩ | ⟨hstatus, hp, -⟩ := eventOf_cases he.symm
      · exact absurd hl (by unfold Loss; decide)
      · have hp : p.running := by
          by_contra hp
          rw [if_neg hp] at he
          subst he
          exact absurd hl (by unfold Loss; decide)
        rw [hstatus]
        exact ⟨alive_of_running hp, rfl⟩
      · rw [hstatus]
        exact ⟨hp, rfl⟩
  · cases he
  · split at he
    case isTrue hp => exact ⟨hp, rfl⟩
    case isFalse => cases he

/-- What is not alive stays so until it is seen alive. -/
theorem effect_not_alive (h : t.effect k p = (q, e)) (hp : p.alive = false)
    (hw : ¬ t.Sees k fun w => w.status.alive = true) : q.alive = false := by
  obtain ⟨w, hsight, hadvance⟩ | ⟨rfl, -⟩ | ⟨rfl, -⟩ := effect_cases h
  · obtain ⟨-, -, -, rfl, -⟩ | ⟨-, rfl, -⟩ | ⟨-, -, rfl, -⟩ := advance_cases hadvance
    · rfl
    · exact hp
    · exact Bool.eq_false_iff.mpr fun halive => hw ⟨w, hsight, halive⟩
  · exact hp
  · rfl

/-- Of a process whose statuses are all known: what is alive and not announced to have ended is
alive, in one of the statuses of a process that runs. -/
theorem advance_alive (h : advance p w = (q, none)) (hp : p.alive)
    (hw : w.status.known) :
    (q = p ∨ q = some (w.status, w.error) ∧
      ¬ (p.running = true ∧ w.status.wobble = true ∧ w.recreating = false)) ∧ q.alive = true := by
  obtain ⟨-, -, -, -, he⟩ | ⟨-, rfl, -⟩ | ⟨-, hwobble, rfl, he⟩ := advance_cases h
  · cases he
  · exact ⟨Or.inl rfl, hp⟩
  · refine ⟨Or.inr ⟨rfl, hwobble⟩, ?_⟩
    unfold Status.known at hw
    rw [Bool.or_eq_true, Bool.or_eq_true] at hw
    obtain (halive | hstop) | herror := hw
    · exact halive
    · obtain ⟨l, hl, -⟩ := eventOf_stopped w.desired hp
      rw [of_decide_eq_true hstop, hl] at he
      cases he
    · rw [of_decide_eq_true herror, eventOf_error] at he
      cases he

/-- What is alive stays so as long as nothing is announced of it and its statuses are known. -/
theorem effect_alive (h : t.effect k p = (q, none)) (hp : p.alive)
    (hw : ¬ t.Sees k fun w => w.status.known = false) : q.alive = true := by
  obtain ⟨w, hsight, hadvance⟩ | ⟨rfl, -⟩ | ⟨-, he⟩ := effect_cases h
  · have hknown : w.status.known := by
      by_contra hnot
      exact hw ⟨w, hsight, Bool.eq_false_iff.mpr hnot⟩
    exact (advance_alive hadvance hp hknown).2
  · exact hp
  · rw [if_pos hp] at he
    cases he

theorem wobble_or_running {status : Status} (h : status.alive) :
    status.wobble ∨ status = .running := by
  cases status with
  | running => exact Or.inr rfl
  | starting | stopping | degraded => exact Or.inl rfl
  | _ => cases h

/-- What runs keeps running for the observer, if it is not recreated either. -/
theorem effect_running (h : t.effect k p = (q, none)) (hp : p.running)
    (hw : ¬ t.Sees k fun w => w.status.known = false)
    (hrec : ¬ t.Sees k fun w => w.recreating = true) : q.running = true := by
  obtain ⟨w, hsight, hadvance⟩ | ⟨rfl, -⟩ | ⟨-, he⟩ := effect_cases h
  · have hknown : w.status.known := by
      by_contra hnot
      exact hw ⟨w, hsight, Bool.eq_false_iff.mpr hnot⟩
    have hstays : w.recreating = false := by
      rw [Bool.eq_false_iff]
      exact fun hr => hrec ⟨w, hsight, hr⟩
    obtain ⟨rfl | ⟨rfl, hwobble⟩, halive⟩ := advance_alive hadvance (alive_of_running hp) hknown
    · exact hp
    · obtain hwob | hrun := wobble_or_running halive
      · exact absurd ⟨hp, hwob, hstays⟩ hwobble
      · exact decide_eq_true hrun
  · exact hp
  · rw [if_pos (alive_of_running hp)] at he
    cases he

/-- What was alive and is seen to have ended is announced. -/
theorem advance_ended (hp : p.alive) (hw : w.status = .stopped ∨ w.status = .error) :
    ∃ l, (advance p w).2 = some l ∧ l ≠ .launched ∧ (p.running → Loss l) := by
  have hdead : w.status.alive = false := by
    obtain hw | hw := hw <;> rw [hw] <;> rfl
  cases h : advance p w with
  | mk q e =>
    obtain ⟨-, -, -, -, rfl⟩ | ⟨hsame, -, -⟩ | ⟨-, -, -, rfl⟩ := advance_cases h
    · exact ⟨.crashed, rfl, by decide, fun _ => Or.inl rfl⟩
    · obtain ⟨-, hwobble⟩ | rfl := hsame
      · obtain hw | hw := hw <;> rw [hw] at hwobble <;> cases hwobble
      · exact absurd hp (Bool.eq_false_iff.mp hdead)
    · obtain hw | hw := hw
      · obtain ⟨l, hl, hloss⟩ := eventOf_stopped w.desired hp
        refine ⟨l, by rw [hw]; exact hl, ?_, fun _ => hloss⟩
        rintro rfl
        exact absurd hloss (by unfold Loss; decide)
      · rw [hw]
        refine ⟨_, eventOf_error w.desired, by split <;> decide, fun hrun => ?_⟩
        rw [if_pos hrun]
        exact Or.inl rfl

/-- What was running and is seen to have ended, or to be lost, is announced as a loss. -/
theorem advance_lost (hp : p.running)
    (hw : w.status = .stopped ∨ w.status = .error ∨ w.status ≠ .running ∧ w.lost) :
    ∃ l, (advance p w).2 = some l ∧ Loss l := by
  by_cases hlost : w.status ≠ .running ∧ w.lost ∧ p.running
  · refine ⟨.crashed, ?_, Or.inl rfl⟩
    unfold advance
    rw [if_pos hlost]
  · have hended : w.status = .stopped ∨ w.status = .error := by
      obtain hw | hw | hw := hw
      · exact Or.inl hw
      · exact Or.inr hw
      · exact absurd ⟨hw.1, hw.2, hp⟩ hlost
    obtain ⟨l, hl, -, hloss⟩ := advance_ended (alive_of_running hp) hended
    exact ⟨l, hl, hloss hp⟩

end Effect

/-! ## The log -/

/-- A turn announces that a launch has ended, or shows that it may have ended unannounced: the key
is being recreated, or is in a status that the observer has no rule for. -/
structure Announced (k : Key) (h : List (Turn × List Record)) : Prop where
  launches : ∀ {a mid c x y}, h = a ++ x :: (mid ++ y :: c) →
    .launched ∈ eventsOf k x.2 → .launched ∈ eventsOf k y.2 →
    ∃ z ∈ mid, (∃ e ∈ eventsOf k z.2, e ≠ .launched) ∨
      z.1.Sees k (fun w => w.recreating = true) ∨ z.1.Sees k fun w => w.status.known = false
  losses : ∀ {a mid c x y}, h = a ++ x :: (mid ++ y :: c) →
    (∃ e ∈ eventsOf k x.2, Loss e) → (∃ e ∈ eventsOf k y.2, Loss e) →
    ∃ z ∈ mid, z.1.Sees k fun w => w.status.alive = true
  ended : ∀ {a mid c x y}, h = a ++ x :: (mid ++ y :: c) →
    .launched ∈ eventsOf k x.2 →
    (∀ z ∈ mid, eventsOf k z.2 = [] ∧ ¬ z.1.Sees k fun w => w.status.known = false) →
    y.1.Sees k (fun w => w.status = .stopped ∨ w.status = .error) →
    ∃ e, eventsOf k y.2 = [e] ∧ e ≠ .launched
  lost : ∀ {a mid c x y}, h = a ++ x :: (mid ++ y :: c) →
    .launched ∈ eventsOf k x.2 →
    (∀ z ∈ mid, eventsOf k z.2 = [] ∧ (¬ z.1.Sees k fun w => w.status.known = false) ∧
      ¬ z.1.Sees k fun w => w.recreating = true) →
    y.1.Sees k (fun w => w.status = .stopped ∨ w.status = .error ∨
      w.status ≠ .running ∧ w.lost) →
    ∃ e, eventsOf k y.2 = [e] ∧ Loss e

section Log

variable {k : Key} {s : State} {t : Turn}

/-- What is logged for a key in a turn is the event of its effect. -/
theorem mem_eventsOf_step {e : Event} (h : e ∈ eventsOf k (step s t).2) :
    t.effect k (last s k) = (last (step s t).1 k, some e) := by
  rw [(step_spec t).2] at h
  rw [(step_spec t).1]
  exact Prod.ext rfl (Option.mem_toList.mp h)

theorem effect_of_quiet (h : eventsOf k (step s t).2 = []) :
    t.effect k (last s k) = (last (step s t).1 k, none) := by
  rw [(step_spec t).2] at h
  rw [(step_spec t).1]
  exact Prod.ext rfl (Option.toList_eq_nil_iff.mp h)

/-- A running process that is not said to have ended has nothing said about it. -/
theorem quiet_of_running (hp : (last s k).running)
    (h : ¬ ∃ e ∈ eventsOf k (step s t).2, e ≠ .launched) :
    t.effect k (last s k) = (last (step s t).1 k, none) := by
  rw [(step_spec t).1]
  refine Prod.ext rfl ?_
  cases he : (t.effect k (last s k)).2 with
  | none => rfl
  | some e =>
    have heffect : t.effect k (last s k) = ((t.effect k (last s k)).1, some e) := Prod.ext rfl he
    refine absurd ⟨e, ?_, fun hl => ?_⟩ h
    · rw [(step_spec t).2, he]
      exact Option.mem_toList.mpr rfl
    · subst hl
      exact Bool.false_ne_true ((effect_launched heffect).1.symm.trans hp)

theorem eventsOf_step {w : Sight} {e : Event} (hw : t.sight k = some w)
    (h : (advance (last s k) w).2 = some e) : eventsOf k (step s t).2 = [e] := by
  have heffect : t.effect k (last s k) = advance (last s k) w := by
    cases t with
    | retire present => cases hw
    | parent d => cases hw
    | group d g runtime =>
      unfold Turn.effect
      dsimp only
      rw [hw]
  rw [(step_spec t).2, heffect, h]
  rfl

theorem announced_history (passes : List Pass) : Announced k (history passes) where
  launches {a mid c x y} h hx hy := by
    by_contra hnone
    have hkeep : ∀ (u : State) (t : Turn), (last u k).running →
        ¬ ((∃ e ∈ eventsOf k (step u t).2, e ≠ .launched) ∨
          t.Sees k (fun w => w.recreating = true) ∨ t.Sees k fun w => w.status.known = false) →
        (last (step u t).1 k).running := by
      intro u t hp hq
      obtain ⟨hevent, hrec, hknown⟩ := not_or.mp hq |>.imp id not_or.mp
      exact effect_running (quiet_of_running hp hevent) hp hknown hrec
    obtain ⟨u, t, hrun, rfl⟩ := between (A := fun x => Event.launched ∈ eventsOf k x.2)
      (fun u t hl => (effect_launched (mem_eventsOf_step hl)).2) hkeep h hx
      fun z hz hQ => hnone ⟨z, hz, hQ⟩
    exact Bool.false_ne_true ((effect_launched (mem_eventsOf_step hy)).1.symm.trans hrun)
  losses {a mid c x y} h hx hy := by
    by_contra hnone
    obtain ⟨u, t, hdead, rfl⟩ := between (P := fun u => (last u k).alive = false)
      (A := fun x => ∃ e ∈ eventsOf k x.2, Loss e)
      (Q := fun z => z.1.Sees k fun w => w.status.alive = true)
      (fun u t ⟨e, he, hl⟩ => (effect_loss hl (mem_eventsOf_step he)).2)
      (fun u t hp hq => effect_not_alive (Prod.ext (step_spec t).1.symm rfl) hp hq) h hx
      fun z hz hQ => hnone ⟨z, hz, hQ⟩
    obtain ⟨e, he, hl⟩ := hy
    exact Bool.false_ne_true (hdead.symm.trans (effect_loss hl (mem_eventsOf_step he)).1)
  ended {a mid c x y} h hx hmid hy := by
    obtain ⟨u, t, halive, rfl⟩ := between (P := fun u => (last u k).alive)
      (A := fun x => Event.launched ∈ eventsOf k x.2)
      (Q := fun z => ¬ (eventsOf k z.2 = [] ∧ ¬ z.1.Sees k fun w => w.status.known = false))
      (fun u t hl => alive_of_running (effect_launched (mem_eventsOf_step hl)).2)
      (fun u t hp hq => by
        obtain ⟨hquiet, hknown⟩ := not_not.mp hq
        exact effect_alive (effect_of_quiet hquiet) hp hknown) h hx
      fun z hz hQ => hQ (hmid z hz)
    obtain ⟨w, hsight, hw⟩ := hy
    obtain ⟨e, he, hne, -⟩ := advance_ended halive hw
    exact ⟨e, eventsOf_step hsight he, hne⟩
  lost {a mid c x y} h hx hmid hy := by
    obtain ⟨u, t, hrun, rfl⟩ := between (P := fun u => (last u k).running)
      (A := fun x => Event.launched ∈ eventsOf k x.2)
      (Q := fun z => ¬ (eventsOf k z.2 = [] ∧ (¬ z.1.Sees k fun w => w.status.known = false) ∧
        ¬ z.1.Sees k fun w => w.recreating = true))
      (fun u t hl => (effect_launched (mem_eventsOf_step hl)).2)
      (fun u t hp hq => by
        obtain ⟨hquiet, hknown, hrec⟩ := not_not.mp hq
        exact effect_running (effect_of_quiet hquiet) hp hknown hrec) h hx
      fun z hz hQ => hQ (hmid z hz)
    obtain ⟨w, hsight, hw⟩ := hy
    obtain ⟨e, he, hl⟩ := advance_lost hrun hw
    exact ⟨e, eventsOf_step hsight he, hl⟩

/-! ## A pass that hides a key -/

/-- The rows of a pass with the key `k`. -/
def Pass.rows (p : Pass) (k : Key) : List Group :=
  p.deployments.flatMap fun d => d.groups.filter fun g => (d.id, g.instanceId) = k

/-- The key is absent from an incomplete inventory, or shown in an outage only. -/
def Pass.Hides (p : Pass) (k : Key) : Prop :=
  (p.rows k = [] ∧ p.inventoryComplete = false) ∨
  (p.rows k ≠ [] ∧ ∀ g ∈ p.rows k, (g.status.getD .unknown).outage)

theorem mem_rows {p : Pass} {d : Deployment} {g : Group} (hd : d ∈ p.deployments)
    (hg : g ∈ d.groups) (hk : (d.id, g.instanceId) = k) : g ∈ p.rows k :=
  List.mem_flatMap.mpr ⟨d, hd, List.mem_filter.mpr ⟨hg, decide_eq_true hk⟩⟩

theorem effect_hidden {p : Pass} (h : p.Hides k) (ht : t ∈ p.turns) (previous : Last) :
    t.effect k previous = (previous, none) := by
  obtain ht | ht := List.mem_append.mp ht
  · split at ht
    case isFalse => exact absurd ht List.not_mem_nil
    case isTrue hcomplete =>
      obtain rfl := List.mem_singleton.mp ht
      obtain ⟨-, hinc⟩ | ⟨hrows, -⟩ := h
      · cases hcomplete.symm.trans hinc
      · obtain ⟨g, hg⟩ := List.exists_mem_of_ne_nil _ hrows
        obtain ⟨d, hd, hg⟩ := List.mem_flatMap.mp hg
        have hid : d.id = k.1 := congrArg Prod.fst (of_decide_eq_true (List.mem_filter.mp hg).2)
        exact if_pos (hid ▸ List.mem_map_of_mem hd)
  obtain ⟨d, hd, ht⟩ := List.mem_flatMap.mp ht
  unfold Pass.turnsOf at ht
  split at ht
  · exact absurd ht List.not_mem_nil
  obtain ht | ht := List.mem_append.mp ht
  · split at ht
    · exact absurd ht List.not_mem_nil
    · obtain rfl := List.mem_singleton.mp ht
      rfl
  obtain ⟨g, hg, rfl⟩ := List.mem_map.mp ht
  have hsight : (Turn.group d g (p.runtime d.id)).sight k = none := by
    unfold Turn.sight
    dsimp only
    split
    case isFalse => rfl
    case isTrue hk =>
      obtain ⟨hrows, -⟩ | ⟨-, hrows⟩ := h
      · exact absurd (mem_rows hd hg hk) (hrows ▸ List.not_mem_nil)
      · unfold sightOf
        dsimp only
        rw [hrows g (mem_rows hd hg hk), Bool.or_true, if_pos rfl]
  unfold Turn.effect
  dsimp only
  rw [hsight]

/-- What a run shows of a key. -/
def shown (k : Key) (h : List (Turn × List Record)) : List (Turn × List Event) :=
  h.map fun x => (x.1, eventsOf k x.2)

/-- Two states that agree on a key show the same of it. -/
theorem shown_congr {u v : State} {turns : List Turn} (h : last u k = last v k) :
    shown k (transcript step u turns) = shown k (transcript step v turns) := by
  refine transcript_view (fun s => last s k) (fun u v t huv => ?_) h
  have huv : last u k = last v k := huv
  refine ⟨?_, ?_⟩
  · calc last (step u t).1 k = (t.effect k (last u k)).1 := (step_spec t).1
      _ = last (step v t).1 k := by rw [huv, (step_spec t).1]
  · calc eventsOf k (step u t).2 = (t.effect k (last u k)).2.toList := (step_spec t).2
      _ = eventsOf k (step v t).2 := by rw [huv, (step_spec t).2]

theorem last_observe_hidden {p : Pass} (h : p.Hides k) : last (observe s p).1 k = last s k := by
  refine part_final (fun s => last s k) fun u t ht => ?_
  calc last (step u t).1 k = (t.effect k (last u k)).1 := (step_spec t).1
    _ = last u k := by rw [effect_hidden h ht]

theorem eventsOf_observe_hidden {p : Pass} (h : p.Hides k) : eventsOf k (observe s p).2 = [] := by
  have hall : ∀ x ∈ transcript step s p.turns, eventsOf k x.2 = [] :=
    forall_transcript fun u t ht => by
      rw [(step_spec t).2, effect_hidden h ht]
      rfl
  refine List.eq_nil_iff_forall_not_mem.mpr fun e he => ?_
  obtain ⟨r, hr, he⟩ := List.mem_filterMap.mp he
  obtain ⟨x, hx, hr⟩ := List.mem_flatMap.mp hr
  have hmem : e ∈ eventsOf k x.2 := List.mem_filterMap.mpr ⟨r, hr, he⟩
  exact absurd hmem (hall x hx ▸ List.not_mem_nil)

/-- **The lifecycle log.** In every run launches and losses are announced once, and a pass that
hides a key logs nothing for it and changes nothing of what is logged for it later. -/
theorem announced (k : Key) :
    (∀ passes, Announced k (history passes)) ∧
    ∀ (passes : List Pass) (p : Pass) (later : List Pass), p.Hides k →
      eventsOf k (observe (after passes) p).2 = [] ∧
      last (after (passes ++ [p])) k = last (after passes) k ∧
      shown k (transcript step (after (passes ++ [p])) (later.flatMap Pass.turns)) =
        shown k (transcript step (after passes) (later.flatMap Pass.turns)) := by
  refine ⟨announced_history, fun passes p later h => ?_⟩
  have hafter : after (passes ++ [p]) = (observe (after passes) p).1 := List.foldl_concat ..
  have hlast : last (after (passes ++ [p])) k = last (after passes) k := by
    rw [hafter, last_observe_hidden h]
  exact ⟨eventsOf_observe_hidden h, hlast, shown_congr hlast⟩

end Log

/-! ## What is not announced -/

section Silent

def row (status : Status) : Deployment := { id := "d", row := { status } }

/-- A launched deployment that is saved, and runs again. -/
def saved : List Pass := [⟨[row .running], false, []⟩, ⟨[row .saved], false, []⟩,
  ⟨[row .running], false, []⟩]

/-- A launched deployment that is recreated, and whose new rank is lost before it runs. -/
def recreated : List Pass :=
  [⟨[row .running], false, []⟩,
   ⟨[row .starting], false, [("d", { members := [{ recreatePending := true }] })]⟩,
   ⟨[row .starting], false, [("d", { members := [{ status := some .exited }] })]⟩]

/-- The turn of one row, with what it logs. -/
def shows (status : Status) (runtime : Cluster) (out : List Record) : Turn × List Record :=
  (.group (row status) (row status).row runtime, out)

def launchedLine : Record := ⟨("d", none), .info, some .launched, "Deployment d launched"⟩

/-- A launch is announced twice with nothing in between, and a lost process is not announced. -/
theorem not_announced_once :
    (¬ ∀ {a mid c x y}, history saved = a ++ x :: (mid ++ y :: c) →
      .launched ∈ eventsOf ("d", none) x.2 → .launched ∈ eventsOf ("d", none) y.2 →
      ∃ z ∈ mid, (∃ e ∈ eventsOf ("d", none) z.2, e ≠ .launched) ∨
        z.1.Sees ("d", none) fun w => w.recreating = true) ∧
    ¬ ∀ {a mid c x y}, history recreated = a ++ x :: (mid ++ y :: c) →
      .launched ∈ eventsOf ("d", none) x.2 → (∀ z ∈ mid, eventsOf ("d", none) z.2 = []) →
      y.1.Sees ("d", none) (fun w => w.status ≠ .running ∧ w.lost = true) →
      eventsOf ("d", none) y.2 ≠ [] := by
  constructor
  · intro h
    obtain ⟨z, hz, hcause⟩ := @h [] [shows .saved {} []] [] (shows .running {} [launchedLine])
      (shows .running {} [launchedLine]) (by decide +kernel) (by decide) (by decide)
    obtain rfl := List.mem_singleton.mp hz
    obtain ⟨e, he, -⟩ | ⟨w, hw, hrec⟩ := hcause
    · exact absurd he List.not_mem_nil
    · cases hw
      cases hrec
  · intro h
    refine @h [] [shows .starting { members := [{ recreatePending := true }] } []] []
      (shows .running {} [launchedLine])
      (shows .starting { members := [{ status := some .exited }] } [])
      (by decide +kernel) (by decide) (by decide) ⟨_, rfl, by decide, by decide⟩ rfl

end Silent

end SparkDeck.EventLog
