import SparkDeck.Lib.Transition
import SparkDeck.Relaunch.Card
import Mathlib.Data.List.Count
import Mathlib.Data.List.Nodup
import Mathlib.Algebra.Group.Int.Defs

/-!
# A relaunch keeps the card of its deployment

A record carries a card if it bears its `sparkdeck_record_id` and has launch settings. `card_kept`
is about every run of the two operations whose steps are `Plain`: outside an operation, the records
that carry a card are as many as there were, and one more for each relaunch that failed after its
replacement was accepted; the last operation left the replacement if it reported success, and
otherwise a record that can be started again; and no container is left that no saved record names.
`second_card` is a relaunch that leaves two.

`Inv` says this at every place of the operations. It is about the `entries`: what the steps that
only change a status leave as it is.
-/

namespace SparkDeck.Relaunch

open Transition

set_option linter.unusedSectionVars false

variable {I C κ : Type} [DecidableEq I] [DecidableEq C]

/-! ## Cards -/

/-- The launch settings and the record id of the card are here. -/
def Record.carries (card : I) (r : Record I C κ) : Bool :=
  decide (r.recordId = some card) && r.settings.isSome

/-- The number of records that carry the card. -/
def carriers (card : I) (l : List (Record I C κ)) : ℕ := l.countP (·.carries card)

/-- A record names the container. -/
def Named (l : List (Record I C κ)) (c : C) : Prop := ∃ r ∈ l, ∃ m ∈ r.members, m.container = c

/-- A start with a selection of nodes takes the relaunch branch. -/
def State.retries (s : State I C κ) (id : I) : Prop :=
  ∀ req : Request, req.nodeIds ≠ [] → req.modelRevision = none →
    (step s (.start id req)).isSome

/-- What the last operation left. -/
def State.answered (s : State I C κ) : Prop :=
  match s.answer with
  | none => True
  | some (.replaced old new card) =>
    (∃ r ∈ s.file, r.id = new ∧ r.recordId = card ∧ r.settings.isSome) ∧
      ∀ r ∈ s.file, r.id ≠ old
  | some (.kept id card) =>
    (∃ r ∈ s.file, r.id = id ∧ r.recordId = card ∧ r.settings.isSome) ∧ s.retries id

/-- The operation may not end here: the file has two records for one card, or none. -/
def State.exposed (s : State I C κ) : Bool :=
  match s.op with
  | .accepting t => !t.isStart
  | .appended t _ => !t.isStart
  | .launching t _ => t.isStart
  | .rollingBack t _ _ => t.isStart
  | .finishing t _ => t.isStart
  | .pruning t _ => !t.isStart && s.memory.all fun r => decide (r.run ≠ t.run)
  | _ => false

/-- The step does not end an operation where it may not end. -/
def Plain (s : State I C κ) : Event I C κ → Prop
  | .cancel => s.exposed = false
  | .kill => s.exposed = false
  | .raises _ =>
    match s.op with
    | .appended t _ => t.isStart
    | _ => True
  | _ => True

/-- No operation has begun. -/
structure Start (s : State I C κ) : Prop where
  op : s.op = .idle
  saved : s.memory = s.file
  ids : (s.memory.map Record.id).Nodup
  /-- The settings bear the record id that the record bears. -/
  linked : ∀ r ∈ s.memory, ∀ x, r.settings = some x → x.recordId = r.recordId
  named : ∀ c ∈ s.containers, Named s.file c
  answer : s.answer = none
  attempts : s.attempts = []

/-! ## Entries -/

/-- What a change of status leaves. -/
structure Entry (I κ : Type) where
  id : I
  recordId : Option I
  settings : Option (Settings I κ)
  run : Option I

def Record.entry (r : Record I C κ) : Entry I κ := ⟨r.id, r.recordId, r.settings, r.run⟩

def entries (l : List (Record I C κ)) : List (Entry I κ) := l.map Record.entry

def Entry.carries (card : I) (e : Entry I κ) : Bool :=
  decide (e.recordId = some card) && e.settings.isSome

variable {s s' : State I C κ} {l : List (Record I C κ)} {E : List (Entry I κ)}
  {t : Task I C κ} {new id token : I} {r old : Record I C κ} {n : I → ℕ} {a : List (Option I)}
  {card : Option I}

theorem carriers_entries (c : I) (l : List (Record I C κ)) :
    carriers c l = (entries l).countP (·.carries c) := by
  induction l with
  | nil => rfl
  | cons r l ih =>
    have hr : r.entry.carries c = r.carries c := rfl
    rw [carriers, List.countP_cons, entries, List.map_cons, List.countP_cons, hr]
    exact congrArg (· + _) ih

variable {f : Record I C κ → Record I C κ}

theorem entries_modify (hf : ∀ r, (f r).entry = r.entry) (l : List (Record I C κ)) (id : I) :
    entries (modify l id f) = entries l := by
  induction l with
  | nil => rfl
  | cons r l ih =>
    have hr : (if r.id = id then f r else r).entry = r.entry := by
      split
      · exact hf r
      · rfl
    rw [entries, entries, modify, List.map_cons, List.map_cons, List.map_cons, hr]
    exact congrArg (r.entry :: ·) ih

@[simp]
theorem entries_status (l : List (Record I C κ)) (id : I) (status : Status) :
    entries (modify l id (Record.withStatus status)) = entries l :=
  entries_modify (f := Record.withStatus status) (fun _ => rfl) l id

@[simp]
theorem entries_append (l l' : List (Record I C κ)) : entries (l ++ l') = entries l ++ entries l' :=
  List.map_append

@[simp]
theorem entries_drop (l : List (Record I C κ)) (id : I) :
    entries (drop l id) = (entries l).filter fun e => decide (e.id ≠ id) := by
  unfold entries drop
  rw [List.filter_map]
  rfl

theorem mem_entries (h : r ∈ l) : r.entry ∈ entries l := List.mem_map_of_mem h

variable {e : Entry I κ}

theorem of_mem_entries (h : e ∈ entries l) : ∃ r ∈ l, r.entry = e :=
  List.mem_map.mp h

/-- The record that `find` finds. -/
theorem find_some (h : find l id = some r) : r ∈ l ∧ r.id = id := by
  refine ⟨List.mem_of_find?_eq_some h, ?_⟩
  have hp := List.find?_some h
  exact of_decide_eq_true hp

/-- An entry, with what is beside it. -/
theorem split_entry (hnd : (E.map Entry.id).Nodup) (h : e ∈ E) :
    ∃ E₁ E₂, E = E₁ ++ e :: E₂ ∧ (∀ x ∈ E₁, x.id ≠ e.id) ∧ ∀ x ∈ E₂, x.id ≠ e.id := by
  obtain ⟨E₁, E₂, rfl⟩ := List.append_of_mem h
  rw [List.map_append, List.map_cons, List.nodup_append] at hnd
  obtain ⟨-, h2, h3⟩ := hnd
  refine ⟨E₁, E₂, rfl, fun x hx => ?_, fun x hx he => ?_⟩
  · exact h3 x.id (List.mem_map_of_mem hx) e.id List.mem_cons_self
  · exact (List.nodup_cons.mp h2).1 (he ▸ List.mem_map_of_mem hx)

theorem filter_ne {E : List (Entry I κ)} (h : ∀ x ∈ E, x.id ≠ id) :
    (E.filter fun e => decide (e.id ≠ id)) = E :=
  List.filter_eq_self.mpr fun x hx => decide_eq_true (h x hx)

/-- Taking out the entry of an id. -/
theorem count_filter (hnd : (E.map Entry.id).Nodup) (h : e ∈ E) (c : I) :
    (E.filter fun x => decide (x.id ≠ e.id)).countP (·.carries c) +
      (if e.carries c then 1 else 0) = E.countP (·.carries c) := by
  obtain ⟨E₁, E₂, rfl, h1, h2⟩ := split_entry hnd h
  rw [List.filter_append, List.filter_cons_of_neg (by simp), filter_ne h1, filter_ne h2,
    List.countP_append, List.countP_append, List.countP_cons]
  omega

/-! ## What holds at each place -/

/-- The number of records that carry a card, beyond what it has to be. -/
def Balanced (n : I → ℕ) (E : List (Entry I κ)) (a : List (Option I)) (d : I → ℤ) : Prop :=
  ∀ c, (E.countP (·.carries c) : ℤ) = n c + a.count (some c) + d c

/-- One, for this card. -/
def unit (card : Option I) (c : I) : ℤ := if card = some c then 1 else 0

def Holds (E : List (Entry I κ)) (id : I) (card : Option I) : Prop :=
  ∃ e ∈ E, e.id = id ∧ e.recordId = card ∧ e.settings.isSome

def Unused (E : List (Entry I κ)) (token : I) : Prop := ∀ e ∈ E, e.run ≠ some token

/-- The record the operation works on is there. -/
structure Ready (n : I → ℕ) (E : List (Entry I κ)) (a : List (Option I)) (t : Task I C κ) :
    Prop where
  balanced : Balanced n E a fun _ => 0
  holds : Holds E t.id t.card
  unused : ∀ token, t.run = some token → Unused E token

/-- The record of a resume is taken out. -/
structure Out (n : I → ℕ) (E : List (Entry I κ)) (a : List (Option I)) (t : Task I C κ)
    (old : Record I C κ) : Prop where
  balanced : Balanced n E a fun c => -unit t.card c
  id : old.id = t.id
  recordId : old.recordId = t.card
  settings : old.settings.isSome
  linked : ∀ x, old.settings = some x → x.recordId = old.recordId
  gone : ∀ e ∈ E, e.id ≠ t.id

/-- The new record has no settings yet. -/
def Bare (E : List (Entry I κ)) (t : Task I C κ) (new : I) : Prop :=
  ∃ e ∈ E, e.id = new ∧ e.recordId = t.card ∧ e.settings = none ∧ e.run = t.run

/-- A relaunch has both records. -/
structure Both (n : I → ℕ) (E : List (Entry I κ)) (a : List (Option I)) (t : Task I C κ)
    (new : I) : Prop where
  balanced : Balanced n E a (unit t.card)
  holds : Holds E t.id t.card
  made : Holds E new t.card
  ne : new ≠ t.id

/-- A resume has the new record. -/
structure Moved (n : I → ℕ) (E : List (Entry I κ)) (a : List (Option I)) (t : Task I C κ)
    (token new : I) : Prop where
  balanced : Balanced n E a fun _ => 0
  made : ∃ e ∈ E, e.id = new ∧ e.recordId = t.card ∧ e.settings.isSome ∧ e.run = some token
  own : ∀ e ∈ E, e.run = some token → e.recordId = t.card ∧ e.settings.isSome
  gone : ∀ e ∈ E, e.id ≠ t.id

/-- `create_deployment` is called. -/
def Called (n : I → ℕ) (E : List (Entry I κ)) (a : List (Option I)) (t : Task I C κ) : Prop :=
  match t.kind with
  | .start => Ready n E a t
  | .resume token old => Out n E a t old ∧ Unused E token

/-- It has appended its record. -/
def Appended (n : I → ℕ) (E : List (Entry I κ)) (a : List (Option I)) (t : Task I C κ)
    (new : I) : Prop :=
  Bare E t new ∧ new ≠ t.id ∧
    match t.kind with
    | .start => Ready n E a t
    | .resume token old => Out n E a t old ∧ ∀ e ∈ E, e.run = some token → e.id = new

/-- It creates the members. -/
def Launched (n : I → ℕ) (E : List (Entry I κ)) (a : List (Option I)) (t : Task I C κ)
    (new : I) : Prop :=
  match t.kind with
  | .start => Both n E a t new
  | .resume token _ => Moved n E a t token new

/-- It has raised. -/
def Raised (n : I → ℕ) (E : List (Entry I κ)) (a : List (Option I)) (t : Task I C κ) : Prop :=
  match t.kind with
  | .start => Ready n E a t
  | .resume token old => (∃ new, Moved n E a t token new) ∨ Out n E a t old ∧ Unused E token

def Answered (E : List (Entry I κ)) : Option (Answer I) → Prop
  | none => True
  | some (.replaced old new card) => Holds E new card ∧ ∀ e ∈ E, e.id ≠ old
  | some (.kept id card) => Holds E id card

def Place (n : I → ℕ) (E : List (Entry I κ)) (s : State I C κ) : Prop :=
  match s.op with
  | .idle => (Balanced n E s.attempts fun _ => 0) ∧ Answered E s.answer
  | .checking t => Ready n E s.attempts t ∧ t.isStart
  | .selecting t => Ready n E s.attempts t
  | .removing t => Ready n E s.attempts t
  | .reclaiming t => Ready n E s.attempts t
  | .accepting t => Called n E s.attempts t
  | .appended t new => Appended n E s.attempts t new
  | .launching t new => Launched n E s.attempts t new
  | .rollingBack t new _ => Launched n E s.attempts t new
  | .finishing t new => Both n E s.attempts t new ∧ t.isStart
  | .pruning t _ => Raised n E s.attempts t

/-- The record whose members a relaunch has removed. -/
def Task.emptied (t : Task I C κ) : List I := if t.isStart then [t.id] else []

/-- The records that have no members. -/
def Op.emptied : Op I C κ → List I
  | .accepting t => t.emptied
  | .appended t new => new :: t.emptied
  | .launching t _ => t.emptied
  | .rollingBack t _ _ => t.emptied
  | .finishing t _ => t.emptied
  | _ => []

def Emptied (l : List (Record I C κ)) (op : Op I C κ) : Prop :=
  ∀ id ∈ op.emptied, ∀ r ∈ l, r.id = id → r.members = []

/-- A record without its status. -/
def Record.still (r : Record I C κ) : Record I C κ := { r with status := .other }

/-- What holds of the records, wherever the operation is. -/
structure Base (s : State I C κ) : Prop where
  ids : ((entries s.memory).map Entry.id).Nodup
  linked : ∀ e ∈ entries s.memory, ∀ x, e.settings = some x → x.recordId = e.recordId
  saved : s.memory.map Record.still = s.file.map Record.still
  named : ∀ c ∈ s.containers, Named s.memory c

structure Inv (n : I → ℕ) (s : State I C κ) : Prop extends Base s where
  emptied : Emptied s.memory s.op
  place : Place n (entries s.memory) s

/-! ## Steps -/

variable {c : C}

/-- The name of a container is kept by what keeps the members. -/
theorem Named.modify (hf : ∀ r, (f r).members = r.members) (h : Named l c) :
    Named (modify l id f) c := by
  obtain ⟨r, hr, m, hm, he⟩ := h
  refine ⟨if r.id = id then f r else r, List.mem_map_of_mem hr, m, ?_, he⟩
  split
  · rw [hf r]
    exact hm
  · exact hm

theorem Named.status {status : Status} (h : Named l c) :
    Named (Relaunch.modify l id (Record.withStatus status)) c :=
  h.modify (f := Record.withStatus status) fun _ => rfl

theorem entries_still (l : List (Record I C κ)) : entries (l.map Record.still) = entries l := by
  unfold entries
  rw [List.map_map]
  rfl

theorem Base.entries_file (h : Base s) : entries s.file = entries s.memory := by
  rw [← entries_still s.file, ← h.saved, entries_still]

theorem Base.named_file (h : Base s) (hc : c ∈ s.containers) : Named s.file c := by
  obtain ⟨r, hr, m, hm, he⟩ := h.named c hc
  have hs : r.still ∈ s.file.map Record.still := by
    rw [← h.saved]
    exact List.mem_map_of_mem hr
  obtain ⟨x, hx, hxr⟩ := List.mem_map.mp hs
  refine ⟨x, hx, m, ?_, he⟩
  have hmem : x.still.members = r.still.members := congrArg Record.members hxr
  change m ∈ x.still.members
  rw [hmem]
  exact hm

theorem still_status (l : List (Record I C κ)) (id : I) (status : Status) :
    (modify l id (Record.withStatus status)).map Record.still = l.map Record.still := by
  unfold modify
  rw [List.map_map]
  refine List.map_congr_left fun r _ => ?_
  dsimp only [Function.comp_apply]
  split <;> rfl

variable {op : Op I C κ}

theorem Emptied.none (h : op.emptied = []) : Emptied l op := by
  intro id hid
  rw [h] at hid
  cases hid

/-- A change that keeps the members, or empties them. -/
theorem Emptied.modify (h : Emptied l op) (hid : ∀ r, (f r).id = r.id)
    (hf : ∀ r, r.members = [] → (f r).members = []) (id : I) :
    Emptied (Relaunch.modify l id f) op := by
  intro i hi r hr he
  obtain ⟨x, hx, rfl⟩ := List.mem_map.mp hr
  split at he
  case isTrue hx' =>
    rw [if_pos hx']
    rw [hid] at he
    exact hf x (h i hi x hx he)
  case isFalse hx' =>
    rw [if_neg hx']
    exact h i hi x hx he

/-- The operation goes on, and nothing is saved. -/
theorem Base.turn (h : Base s) {x : Option (Answer I)} {a : List (Option I)}
    (he : Emptied s.memory op)
    (hp : Place n (entries s.memory) { s with op := op, answer := x, attempts := a }) :
    Inv n { s with op := op, answer := x, attempts := a } :=
  { h with emptied := he, place := hp }

/-- Memory changes by what leaves the entries and the members, and is saved. -/
theorem Base.put (h : Base s) (hf : ∀ r, (f r).entry = r.entry)
    (hm : ∀ r, (f r).members = r.members) (id : I) {x : Option (Answer I)}
    (he : Emptied s.memory op) (hp : Place n (entries s.memory) { s with op := op, answer := x }) :
    Inv n { s with
      memory := modify s.memory id f
      file := modify s.memory id f
      op := op
      answer := x } where
  ids := by
    rw [entries_modify hf]
    exact h.ids
  linked := by
    rw [entries_modify hf]
    exact h.linked
  saved := rfl
  named c hc := (h.named c hc).modify hm
  emptied := he.modify (fun r => congrArg Entry.id (hf r)) (fun r hr => (hm r).trans hr) id
  place := by
    rw [entries_modify hf]
    exact hp

/-- The operation ends, and the record it worked on is left. -/
theorem Ready.idle (h : Ready n E s.attempts t) {s' : State I C κ} (ha : s'.attempts = s.attempts)
    (hop : s'.op = .idle) (hans : s'.answer = some t.keep) : Place n E s' := by
  unfold Place
  rw [hop, ha, hans]
  exact ⟨h.balanced, h.holds⟩

/-- `aborted` -/
theorem Base.aborted (h : Base s) (hr : Ready n (entries s.memory) s.attempts t) :
    Inv n (s.aborted t) :=
  h.put (f := Record.withStatus _) (fun _ => rfl) (fun _ => rfl) t.id (Emptied.none rfl)
    (hr.idle rfl rfl rfl)

/-- `deferred`, with a record that carries the card. -/
theorem Base.deferred (h : Base s) (hb : Balanced n (entries s.memory) s.attempts fun _ => 0)
    (hh : Holds (entries s.memory) id t.card) : Inv n (s.deferred t id) :=
  h.put (f := Record.withStatus _) (fun _ => rfl) (fun _ => rfl) id (Emptied.none rfl) ⟨hb, hh⟩

/-- The record with the token of the resume. -/
theorem run_some {token : I} (h : (s.memory.find? fun r => decide (r.run = some token)) = some r) :
    r.entry ∈ entries s.memory ∧ r.entry.run = some token :=
  have hp := List.find?_some h
  ⟨mem_entries (List.mem_of_find?_eq_some h), of_decide_eq_true hp⟩

theorem run_none {token : I} (h : (s.memory.find? fun r => decide (r.run = some token)) = none) :
    Unused (entries s.memory) token := by
  intro e he hrun
  obtain ⟨r, hr, rfl⟩ := of_mem_entries he
  have hno := List.find?_eq_none.mp h r hr
  exact hno (decide_eq_true hrun)

theorem Moved.not_unused (h : Moved n E a t token new) : ¬Unused E token := by
  intro hu
  obtain ⟨e, he, -, -, -, hrun⟩ := h.made
  exact hu e he hrun

theorem Moved.holds (h : Moved n E a t token new) (he : e ∈ E) (hrun : e.run = some token) :
    Holds E e.id t.card :=
  ⟨e, he, rfl, (h.own e he hrun).1, (h.own e he hrun).2⟩

theorem Moved.made_holds (h : Moved n E a t token new) : Holds E new t.card := by
  obtain ⟨e, he, hid, hrec, hset, -⟩ := h.made
  exact ⟨e, he, hid, hrec, hset⟩

theorem countP_append_entry (E : List (Entry I κ)) (e : Entry I κ) (c : I) :
    (E ++ [e]).countP (·.carries c) = E.countP (·.carries c) + if e.carries c then 1 else 0 := by
  rw [List.countP_append, List.countP_singleton]

/-- An entry with settings counts for its card. -/
theorem carries_unit {c₀ : Option I} (hr : e.recordId = c₀) (hs : e.settings.isSome)
    (c : I) : ((if e.carries c then 1 else 0 : ℕ) : ℤ) = unit c₀ c := by
  unfold unit Entry.carries
  rw [hr, hs, Bool.and_true]
  by_cases hc : c₀ = some c
  · rw [if_pos hc, if_pos (decide_eq_true hc)]
    rfl
  · rw [if_neg hc, if_neg (by simpa using hc)]
    rfl

/-- The record that was taken out is put back. -/
theorem Base.putBack (h : Base s) (ho : Out n (entries s.memory) s.attempts t old)
    (status : Status) :
    Inv n ((s.save (s.memory ++ [old.withStatus status])).finish t.keep) := by
  have hE : entries (s.memory ++ [old.withStatus status]) = entries s.memory ++ [old.entry] :=
    entries_append _ _
  refine { ids := ?_, linked := ?_, saved := rfl, named := ?_, emptied := Emptied.none rfl, place := ?_ }
  · change ((entries (s.memory ++ [old.withStatus status])).map Entry.id).Nodup
    rw [hE, List.map_append, List.nodup_append]
    refine ⟨h.ids, List.nodup_singleton _, ?_⟩
    rintro x hx y hy rfl
    obtain ⟨e, he, hid⟩ := List.mem_map.mp hx
    have hold : x = old.id := List.mem_singleton.mp hy
    exact ho.gone e he (hid.trans (hold.trans ho.id))
  · change ∀ e ∈ entries (s.memory ++ [old.withStatus status]), _
    rw [hE]
    intro e he
    rcases List.mem_append.mp he with he | he
    · exact h.linked e he
    · rw [List.mem_singleton.mp he]
      exact ho.linked
  · intro c hc
    obtain ⟨r, hr, hm⟩ := h.named c hc
    exact ⟨r, List.mem_append_left _ hr, hm⟩
  · change Place n (entries (s.memory ++ [old.withStatus status])) _
    rw [hE]
    refine ⟨fun c => ?_, old.entry, ?_, ho.id, ho.recordId, ho.settings⟩
    · have hb := ho.balanced c
      have hu := carries_unit (e := old.entry) ho.recordId ho.settings c
      change _ = (n c : ℤ) + (s.attempts.count (some c) : ℤ) + 0
      rw [countP_append_entry]
      dsimp only at hb
      omega
    · exact List.mem_append_right _ List.mem_cons_self

/-- The handler around `create_deployment` ends. -/
theorem Base.settle (h : Base s) (hr : Raised n (entries s.memory) s.attempts t)
    (reconnect : Bool) : Inv n (s.settle t reconnect) := by
  unfold State.settle
  unfold Raised at hr
  cases hk : t.kind with
  | start =>
    rw [hk] at hr
    exact h.aborted hr
  | resume token old =>
    rw [hk] at hr
    dsimp only at hr ⊢
    cases hf : s.memory.find? fun r => decide (r.run = some token) with
    | some r =>
      obtain ⟨he, hrun⟩ := run_some hf
      rcases hr with ⟨new, hm⟩ | ⟨-, hu⟩
      · dsimp only
        cases reconnect with
        | true => exact h.deferred hm.balanced (hm.holds he hrun)
        | false => exact h.turn (Emptied.none rfl) ⟨hm.balanced, hm.holds he hrun⟩
      · exact absurd hrun (hu _ he)
    | none =>
      rcases hr with ⟨new, hm⟩ | ⟨ho, -⟩
      · exact absurd (run_none hf) hm.not_unused
      · exact h.putBack ho _

theorem Base.failed (h : Base s) (hr : Raised n (entries s.memory) s.attempts t)
    (reconnect : Bool) : Inv n (s.failed t reconnect) := by
  unfold State.failed
  split
  · exact h.turn (Emptied.none rfl) hr
  · exact h.settle hr reconnect

theorem Called.raised (h : Called n E a t) : Raised n E a t := by
  unfold Called at h
  unfold Raised
  split at h
  · exact h
  · exact Or.inr h

/-! ### The members -/

theorem State.owns_named (h : s.owns id c) : Named s.memory c := by
  obtain ⟨r, hr, hp⟩ := List.any_eq_true.mp h
  rw [Bool.and_eq_true] at hp
  obtain ⟨m, hm, he⟩ := List.any_eq_true.mp hp.2
  exact ⟨r, hr, m, hm, of_decide_eq_true he⟩

theorem Inv.withoutContainer (h : Inv n s) (c : C) : Inv n (s.withoutContainer c) :=
  { h with named := fun x hx => h.named x (List.mem_of_mem_filter hx) }

theorem Inv.withContainer (h : Inv n s) (hc : s.owns id c) : Inv n (s.withContainer c) :=
  { h with
    named := fun x hx => by
      rcases List.mem_cons.mp hx with rfl | hx
      · exact s.owns_named hc
      · exact h.named x hx }

/-- Where the members of a record are gone, another record names the container. -/
theorem State.cleared_named (hcl : s.cleared id) (hc : c ∈ s.containers)
    (hn : Named s.memory c) : ∃ r ∈ s.memory, r.id ≠ id ∧ ∃ m ∈ r.members, m.container = c := by
  obtain ⟨r, hr, m, hm, he⟩ := hn
  refine ⟨r, hr, fun hid => ?_, m, hm, he⟩
  have hall := List.all_eq_true.mp hcl r hr
  rw [decide_eq_false (not_not_intro hid), Bool.false_or] at hall
  have hno := of_decide_eq_true (List.all_eq_true.mp hall m hm)
  exact hno (he ▸ hc)

/-- A relaunch has removed its members. -/
theorem Base.empty (h : Base s) (hk : t.kind = .start) (hcl : s.cleared t.id)
    (hr : Ready n (entries s.memory) s.attempts t) : Inv n (s.afterRemoval t) := by
  have hE : entries (modify s.memory t.id fun r => { r with members := [] }) = entries s.memory :=
    entries_modify (f := fun r => { r with members := [] }) (fun _ => rfl) _ _
  have hs : s.afterRemoval t =
      (s.save (modify s.memory t.id fun r => { r with members := [] })).goTo (.accepting t) := by
    unfold State.afterRemoval
    rw [hk]
  rw [hs]
  refine { ids := ?_, linked := ?_, saved := rfl, named := ?_, emptied := ?_, place := ?_ }
  · exact hE ▸ h.ids
  · exact hE ▸ h.linked
  · intro c hc
    obtain ⟨r, hr, hne, m, hm, he⟩ := s.cleared_named hcl hc (h.named c hc)
    refine ⟨r, List.mem_map.mpr ⟨r, hr, if_neg hne⟩, m, hm, he⟩
  · intro id hid r hr he
    obtain ⟨x, hx, rfl⟩ := List.mem_map.mp hr
    have hid' : t.id = id := by
      change id ∈ t.emptied at hid
      rw [Task.emptied, Task.isStart, hk] at hid
      exact (List.mem_singleton.mp hid).symm
    split at he
    case isTrue hx' => rw [if_pos hx']
    case isFalse hx' => exact absurd (he.trans hid'.symm) hx'
  · change Called n (entries (modify s.memory t.id fun r => { r with members := [] })) s.attempts t
    rw [hE, Called, hk]
    exact hr

/-- A record is taken out. -/
theorem Base.drop (h : Base s) {id : I} (hid : ∀ c ∈ s.containers, ∃ r ∈ s.memory, r.id ≠ id ∧
      ∃ m ∈ r.members, m.container = c) :
    Base (s.save (Relaunch.drop s.memory id)) where
  ids := by
    change ((entries (Relaunch.drop s.memory id)).map Entry.id).Nodup
    rw [entries_drop]
    exact h.ids.sublist (List.filter_sublist.map _)
  linked e he := by
    change e ∈ entries (Relaunch.drop s.memory id) at he
    rw [entries_drop] at he
    exact h.linked e (List.mem_of_mem_filter he)
  saved := rfl
  named c hc := by
    obtain ⟨r, hr, hne, hm⟩ := hid c hc
    exact ⟨r, List.mem_filter.mpr ⟨hr, decide_eq_true hne⟩, hm⟩

theorem gone_of_drop (h : e ∈ entries (drop l id)) : e.id ≠ id := by
  rw [entries_drop] at h
  exact of_decide_eq_true (List.mem_filter.mp h).2

variable {d : I → ℤ}

/-- One record less carries the card. -/
theorem balanced_drop (hnd : ((entries l).map Entry.id).Nodup) (h : Holds (entries l) id card)
    (hb : Balanced n (entries l) a d) :
    Balanced n (entries (drop l id)) a fun c => d c - unit card c := by
  obtain ⟨e, he, rfl, rfl, hs⟩ := h
  intro c
  have hc := count_filter hnd he c
  have hu := carries_unit rfl hs c
  have hbc := hb c
  change _ = (n c : ℤ) + (a.count (some c) : ℤ) + (d c - unit e.recordId c)
  rw [entries_drop]
  omega

/-- The record is the one that is found, for its id is its own. -/
theorem Base.found (h : Base s) (hh : Holds (entries s.memory) id card) :
    ∃ r, find s.memory id = some r ∧ r.id = id ∧ r.recordId = card ∧ r.settings.isSome := by
  obtain ⟨e, he, hid, hrec, hset⟩ := hh
  obtain ⟨x, hx, rfl⟩ := of_mem_entries he
  have hsome : (find s.memory id).isSome :=
    List.find?_isSome.mpr ⟨x, hx, decide_eq_true hid⟩
  obtain ⟨r, hf⟩ := Option.isSome_iff_exists.mp hsome
  obtain ⟨hmem, hrid⟩ := find_some hf
  have hsame : r.entry = x.entry :=
    List.inj_on_of_nodup_map h.ids (mem_entries hmem) he (hrid.trans hid.symm)
  refine ⟨r, hf, hrid, ?_, ?_⟩
  · exact (congrArg Entry.recordId hsame).trans hrec
  · exact (congrArg (fun e => e.settings.isSome) hsame).trans hset

/-- A resume has removed its members. -/
theorem Base.takeOut (h : Base s) (hk : t.kind = .resume token old) (hcl : s.cleared t.id)
    (hr : Ready n (entries s.memory) s.attempts t) : Inv n (s.afterRemoval t) := by
  have hbase := h.drop fun c hc => s.cleared_named hcl hc (h.named c hc)
  have hnew : Emptied (Relaunch.drop s.memory t.id)
      (.accepting { t with kind := .resume token ((find s.memory t.id).getD old) }) :=
    Emptied.none rfl
  have hunused : Unused (entries (Relaunch.drop s.memory t.id)) token := by
    intro e he
    rw [entries_drop] at he
    refine hr.unused token ?_ e (List.mem_of_mem_filter he)
    rw [Task.run, hk]
  obtain ⟨r, hf, hrid, hrec, hset⟩ := h.found hr.holds
  have hlinked := h.linked r.entry (mem_entries (find_some hf).1)
  unfold State.afterRemoval
  rw [hk]
  dsimp only
  rw [hf]
  refine { hbase with emptied := Emptied.none rfl, place := ?_ }
  refine ⟨⟨?_, hrid, hrec, hset, hlinked, fun e he => gone_of_drop he⟩, hunused⟩
  intro c
  refine (balanced_drop h.ids hr.holds hr.balanced c).trans ?_
  change (n c : ℤ) + (s.attempts.count (some c) : ℤ) + (0 - unit t.card c) =
    (n c : ℤ) + (s.attempts.count (some c) : ℤ) + -unit t.card c
  omega

/-! ### The new record -/

theorem Holds.append (h : Holds E id card) (e : Entry I κ) : Holds (E ++ [e]) id card := by
  obtain ⟨x, hx, hp⟩ := h
  exact ⟨x, List.mem_append_left _ hx, hp⟩

/-- A record without settings carries nothing. -/
theorem Balanced.bare (h : Balanced n E a d) (he : e.settings = none) :
    Balanced n (E ++ [e]) a d := by
  intro c
  have hc : e.carries c = false := by
    unfold Entry.carries
    rw [he, Option.isSome_none, Bool.and_false]
  rw [countP_append_entry, hc]
  exact h c

/-- `create_deployment` appends its record. -/
theorem Base.accept (h : Base s) (hemp : Emptied s.memory (.accepting t))
    (hc : Called n (entries s.memory) s.attempts t) (hne : new ≠ t.id)
    (hfresh : ∀ r ∈ s.memory, r.id ≠ new) :
    Inv n ((s.save (s.memory ++ [t.accepted new])).goTo (.appended t new)) := by
  have hE : entries (s.memory ++ [t.accepted new]) = entries s.memory ++ [(t.accepted new).entry] :=
    entries_append _ _
  refine { ids := ?_, linked := ?_, saved := rfl, named := ?_, emptied := ?_, place := ?_ }
  · change ((entries (s.memory ++ [t.accepted new])).map Entry.id).Nodup
    rw [hE, List.map_append, List.nodup_append]
    refine ⟨h.ids, List.nodup_singleton _, ?_⟩
    rintro x hx y hy rfl
    obtain ⟨e, he, hid⟩ := List.mem_map.mp hx
    obtain ⟨r, hr, rfl⟩ := of_mem_entries he
    have hnew : x = new := List.mem_singleton.mp hy
    exact hfresh r hr (hid.trans hnew)
  · change ∀ e ∈ entries (s.memory ++ [t.accepted new]), _
    rw [hE]
    intro e he x hx
    rcases List.mem_append.mp he with he | he
    · exact h.linked e he x hx
    · rw [List.mem_singleton.mp he] at hx
      cases hx
  · intro c hc
    obtain ⟨r, hr, hm⟩ := h.named c hc
    exact ⟨r, List.mem_append_left _ hr, hm⟩
  · intro id hid r hr he
    rcases List.mem_append.mp hr with hold | hmade
    · rcases List.mem_cons.mp hid with hnew | hstart
      · exact absurd (he.trans hnew) (hfresh r hold)
      · exact hemp id hstart r hold he
    · rw [List.mem_singleton.mp hmade]
      rfl
  · change Appended n (entries (s.memory ++ [t.accepted new])) s.attempts t new
    rw [hE]
    refine ⟨⟨_, List.mem_append_right _ List.mem_cons_self, rfl, rfl, rfl, rfl⟩, hne, ?_⟩
    unfold Called at hc
    cases hk : t.kind with
    | start =>
      rw [hk] at hc
      refine ⟨hc.balanced.bare rfl, hc.holds.append _, fun token ht => ?_⟩
      rw [Task.run, hk] at ht
      cases ht
    | resume token old =>
      rw [hk] at hc
      obtain ⟨ho, hu⟩ := hc
      refine ⟨{ ho with balanced := ho.balanced.bare rfl, gone := fun e he => ?_ }, fun e he hr => ?_⟩
      · rcases List.mem_append.mp he with he | he
        · exact ho.gone e he
        · rw [List.mem_singleton.mp he]
          exact hne
      · rcases List.mem_append.mp he with he | he
        · exact absurd hr (hu e he)
        · rw [List.mem_singleton.mp he]
          rfl

/-- An entry gets its settings. -/
def Entry.fill (new : I) (x : Settings I κ) (e : Entry I κ) : Entry I κ :=
  if e.id = new then { e with settings := some x } else e

theorem Entry.fill_id (x : Settings I κ) (e : Entry I κ) : (e.fill new x).id = e.id := by
  unfold Entry.fill
  split <;> rfl

theorem Entry.fill_run (x : Settings I κ) (e : Entry I κ) : (e.fill new x).run = e.run := by
  unfold Entry.fill
  split <;> rfl

/-- `launch_settings` and `members` of the new record. -/
theorem entries_fill (l : List (Record I C κ)) (new : I) (members : List (Member C))
    (x : Settings I κ) :
    entries (modify l new fun r => { r with members := members, settings := some x }) =
      (entries l).map (Entry.fill new x) := by
  unfold entries modify
  rw [List.map_map, List.map_map]
  refine List.map_congr_left fun r _ => ?_
  dsimp only [Function.comp_apply]
  unfold Entry.fill
  by_cases hr : r.id = new
  · rw [if_pos hr, if_pos (show r.entry.id = new from hr)]
    rfl
  · rw [if_neg hr, if_neg (show ¬r.entry.id = new from hr)]

theorem fill_apart {E : List (Entry I κ)} {x : Settings I κ} (h : ∀ e ∈ E, e.id ≠ new) :
    E.map (Entry.fill new x) = E := by
  refine (List.map_congr_left fun e he => ?_).trans (List.map_id E)
  exact if_neg (h e he)

/-- The record without settings gets them. -/
theorem fill_balanced (hnd : (E.map Entry.id).Nodup) (hb : Bare E t new) (x : Settings I κ)
    (h : Balanced n E a d) :
    Balanced n (E.map (Entry.fill new x)) a fun c => d c + unit t.card c := by
  obtain ⟨e, he, rfl, hrec, hset, -⟩ := hb
  obtain ⟨E₁, E₂, rfl, h1, h2⟩ := split_entry hnd he
  intro c
  have hbc := h c
  have hno : e.carries c = false := by
    unfold Entry.carries
    rw [hset, Option.isSome_none, Bool.and_false]
  have hrec' : (Entry.fill e.id x e).recordId = t.card := by
    rw [Entry.fill, if_pos rfl]
    exact hrec
  have hyes := carries_unit hrec' (by rw [Entry.fill, if_pos rfl]; rfl) c
  rw [List.countP_append, List.countP_cons, hno] at hbc
  rw [List.map_append, List.map_cons, fill_apart h1, fill_apart h2, List.countP_append,
    List.countP_cons]
  change _ = (n c : ℤ) + (a.count (some c) : ℤ) + (d c + unit t.card c)
  rw [if_neg Bool.false_ne_true] at hbc
  omega

/-- The members of the new record are known. -/
theorem Base.fill (h : Base s) (hemp : Emptied s.memory (.appended t new))
    (hp : Appended n (entries s.memory) s.attempts t new) (members : List (Member C))
    (plan : Settings I κ) :
    Inv n ((s.save (modify s.memory new (Record.fill t members plan))).goTo
      (.launching t new)) := by
  obtain ⟨hbare, hne, hk⟩ := hp
  obtain ⟨x, hx⟩ : ∃ x, x = { plan with recordId := t.body.recordId } := ⟨_, rfl⟩
  have hxr : x.recordId = t.card := by rw [hx]; rfl
  have hE : entries (modify s.memory new (Record.fill t members plan)) =
      (entries s.memory).map (Entry.fill new x) := by
    rw [hx]
    exact entries_fill s.memory new members _
  have hbal := fun d => fill_balanced (n := n) (a := s.attempts) (d := d) h.ids hbare x
  obtain ⟨e, he, hid, hrec, hset, hrun⟩ := hbare
  have hown : ∀ y ∈ entries s.memory, y.id = new → y = e := fun y hy hyid =>
    List.inj_on_of_nodup_map h.ids hy he (hyid.trans hid.symm)
  have hfill : e.fill new x = { e with settings := some x } := if_pos hid
  have hmade : { e with settings := some x } ∈ (entries s.memory).map (Entry.fill new x) := by
    rw [← hfill]
    exact List.mem_map_of_mem he
  refine { ids := ?_, linked := ?_, saved := rfl, named := ?_, emptied := ?_, place := ?_ }
  · change ((entries (modify s.memory new (Record.fill t members plan))).map Entry.id).Nodup
    have hsame : ((entries s.memory).map (Entry.fill new x)).map Entry.id =
        (entries s.memory).map Entry.id := by
      rw [List.map_map]
      exact List.map_congr_left fun y _ => Entry.fill_id x y
    rw [hE, hsame]
    exact h.ids
  · change ∀ y ∈ entries (modify s.memory new (Record.fill t members plan)), _
    rw [hE]
    intro y' hy' z hz
    obtain ⟨y, hy, rfl⟩ := List.mem_map.mp hy'
    by_cases hyid : y.id = new
    · obtain rfl := hown y hy hyid
      rw [hfill] at hz ⊢
      cases hz
      exact hxr.trans hrec.symm
    · rw [Entry.fill, if_neg hyid] at hz ⊢
      exact h.linked y hy z hz
  · intro c hc
    obtain ⟨r, hr, m, hm, hmc⟩ := h.named c hc
    have hrne : r.id ≠ new := by
      intro hrid
      rw [hemp new List.mem_cons_self r hr hrid] at hm
      cases hm
    exact ⟨r, List.mem_map.mpr ⟨r, hr, if_neg hrne⟩, m, hm, hmc⟩
  · intro id hid' r hr hrid
    obtain ⟨y, hy, rfl⟩ := List.mem_map.mp hr
    by_cases hyid : y.id = new
    · rw [if_pos hyid] at hrid
      -- Only the original is without members now.
      have hidt : id = t.id := by
        change id ∈ t.emptied at hid'
        unfold Task.emptied at hid'
        split at hid'
        · exact List.mem_singleton.mp hid'
        · cases hid'
      exact absurd ((hyid.symm.trans hrid).trans hidt) hne
    · rw [if_neg hyid] at hrid ⊢
      exact hemp id (List.mem_cons_of_mem _ hid') y hy hrid
  · change Launched n (entries (modify s.memory new (Record.fill t members plan))) s.attempts t new
    rw [hE]
    unfold Launched
    cases hkind : t.kind with
    | start =>
      rw [hkind] at hk
      dsimp only at hk ⊢
      refine { balanced := ?_, holds := ?_, made := ⟨_, hmade, hid, hrec, rfl⟩, ne := hne }
      · intro c
        refine (hbal _ hk.balanced c).trans ?_
        dsimp only
        omega
      · obtain ⟨y, hy, hyid, hyrec, hyset⟩ := hk.holds
        have hyne : ¬y.id = new := fun hyn => hne (hyn.symm.trans hyid)
        exact ⟨y, List.mem_map.mpr ⟨y, hy, if_neg hyne⟩, hyid, hyrec, hyset⟩
    | resume token old =>
      rw [hkind] at hk
      dsimp only at hk ⊢
      have htoken : t.run = some token := by rw [Task.run, hkind]
      refine { balanced := ?_, made := ⟨_, hmade, hid, hrec, rfl, hrun.trans htoken⟩, own := ?_,
               gone := ?_ }
      · intro c
        refine (hbal _ hk.1.balanced c).trans ?_
        dsimp only
        omega
      · intro y' hy' hyrun
        obtain ⟨y, hy, rfl⟩ := List.mem_map.mp hy'
        rw [Entry.fill_run] at hyrun
        obtain rfl := hown y hy (hk.2 y hy hyrun)
        rw [hfill]
        exact ⟨hrec, rfl⟩
      · intro y' hy'
        obtain ⟨y, hy, rfl⟩ := List.mem_map.mp hy'
        rw [Entry.fill_id]
        exact hk.1.gone y hy

/-! ### The members are created -/

theorem Task.isStart_start (hk : t.kind = .start) : t.isStart := by
  rw [Task.isStart, hk]

theorem Task.isStart_resume (hk : t.kind = .resume token old) : t.isStart = false := by
  rw [Task.isStart, hk]

theorem Both.ready (h : Both n E a t new) (hk : t.kind = .start) :
    Ready n E (t.card :: a) t where
  balanced c := by
    have hb := h.balanced c
    have hc : (t.card :: a).count (some c) = a.count (some c) + if t.card = some c then 1 else 0 := by
      rw [List.count_cons]
      simp only [beq_iff_eq]
    change _ = (n c : ℤ) + ((t.card :: a).count (some c) : ℤ) + 0
    rw [hc]
    unfold unit at hb
    by_cases he : t.card = some c
    · rw [if_pos he] at hb ⊢
      omega
    · rw [if_neg he] at hb ⊢
      omega
  holds := h.holds
  unused token ht := by
    rw [Task.run, hk] at ht
    cases ht

/-- The rollback of a failed launch is over. -/
theorem Inv.rolledBack (h : Inv n s) (hl : Launched n (entries s.memory) s.attempts t new)
    (reconnect : Bool) : Inv n ((s.rolledBack t).failed t reconnect) := by
  have hmem : (s.rolledBack t).memory = s.memory := by
    unfold State.rolledBack
    split <;> rfl
  have hbase : Base (s.rolledBack t) := by
    unfold State.rolledBack
    split
    · exact { h.toBase with saved := rfl }
    · exact { h.toBase with saved := rfl }
  refine hbase.failed ?_ reconnect
  rw [hmem]
  unfold Launched at hl
  unfold Raised
  cases hk : t.kind with
  | start =>
    rw [hk] at hl
    have ha : (s.rolledBack t).attempts = t.card :: s.attempts := by
      unfold State.rolledBack
      rw [if_pos (Task.isStart_start hk)]
      rfl
    rw [ha]
    exact hl.ready hk
  | resume token old =>
    rw [hk] at hl
    have ha : (s.rolledBack t).attempts = s.attempts := by
      unfold State.rolledBack
      rw [Task.isStart_resume hk, if_neg Bool.false_ne_true]
      rfl
    rw [ha]
    exact Or.inl ⟨new, hl⟩

theorem Inv.launched (h : Inv n s) (hop : s.op = .launching t new)
    (hl : Launched n (entries s.memory) s.attempts t new) : Inv n (s.launched t new) := by
  unfold State.launched
  cases hk : t.kind with
  | start =>
    rw [Launched, hk] at hl
    have hstart : t.isStart := Task.isStart_start hk
    have hemp : Emptied s.memory (.finishing t new) := by
      have he := h.emptied
      rw [hop] at he
      exact he
    dsimp only
    rw [if_pos hstart]
    exact h.put (f := Record.withStatus .starting) (fun _ => rfl) (fun _ => rfl) new hemp
      ⟨hl, hstart⟩
  | resume token old =>
    rw [Launched, hk] at hl
    dsimp only
    rw [Task.isStart_resume hk, if_neg Bool.false_ne_true]
    exact h.put (f := Record.withStatus .starting) (fun _ => rfl) (fun _ => rfl) new
      (Emptied.none rfl) ⟨hl.balanced, hl.made_holds, hl.gone⟩

theorem Inv.launchFailed (h : Inv n s) (hop : s.op = .launching t new)
    (hl : Launched n (entries s.memory) s.attempts t new) (reconnect : Bool) :
    Inv n (s.launchFailed t new reconnect) := by
  have hE : entries (modify s.memory new (Record.withStatus .error)) = entries s.memory :=
    entries_status _ _ _
  have hemp := h.emptied
  rw [hop] at hemp
  exact
    { ids := hE ▸ h.ids
      linked := hE ▸ h.linked
      saved := (still_status _ _ _).trans h.saved
      named := fun c hc => (h.named c hc).status
      emptied := Emptied.modify (f := Record.withStatus .error) hemp (fun _ => rfl)
        (fun _ hr => hr) new
      place := hE ▸ hl }

/-- The relaunch drops the old record. -/
theorem Inv.finished (h : Inv n s) (hop : s.op = .finishing t new)
    (hb : Both n (entries s.memory) s.attempts t new) (hs : t.isStart) :
    Inv n ((s.save (Relaunch.drop s.memory t.id)).finish (.replaced t.id new t.card)) := by
  have hemp := h.emptied
  rw [hop] at hemp
  have hmem : t.id ∈ (Op.finishing t new : Op I C κ).emptied := by
    rw [Op.emptied, Task.emptied, if_pos hs]
    exact List.mem_cons_self
  have hbase : Base (s.save (Relaunch.drop s.memory t.id)) := h.toBase.drop fun c hc => by
    obtain ⟨r, hr, m, hm, he⟩ := h.named c hc
    refine ⟨r, hr, fun hid => ?_, m, hm, he⟩
    rw [hemp t.id hmem r hr hid] at hm
    cases hm
  refine { hbase with emptied := Emptied.none rfl, place := ⟨fun c => ?_, ?_, ?_⟩ }
  · refine (balanced_drop h.ids hb.holds hb.balanced c).trans ?_
    change (n c : ℤ) + (s.attempts.count (some c) : ℤ) + (unit t.card c - unit t.card c) =
      (n c : ℤ) + (s.attempts.count (some c) : ℤ) + 0
    omega
  · obtain ⟨e, he, hid, hrec, hset⟩ := hb.made
    refine ⟨e, ?_, hid, hrec, hset⟩
    change e ∈ entries (Relaunch.drop s.memory t.id)
    rw [entries_drop]
    refine List.mem_filter.mpr ⟨he, decide_eq_true fun hold => hb.ne (hid.symm.trans hold)⟩
  · intro e he
    exact gone_of_drop he

/-! ### An operation ends early -/

theorem Ready.left (h : Ready n E a t) :
    (Balanced n E a fun _ => 0) ∧ Answered E (some t.keep) := ⟨h.balanced, h.holds⟩

/-- Outside the places where it is exposed, what is left is right. -/
theorem Inv.left (h : Inv n s) (hx : s.exposed = false) :
    (Balanced n (entries s.memory) s.attempts fun _ => 0) ∧
      Answered (entries s.memory) s.left := by
  have hp := h.place
  unfold Place at hp
  unfold State.exposed at hx
  unfold State.left
  cases hop : s.op with
  | idle =>
    rw [hop] at hp
    exact hp
  | checking t =>
    rw [hop] at hp
    exact hp.1.left
  | selecting t | removing t | reclaiming t =>
    rw [hop] at hp
    exact hp.left
  | accepting t =>
    rw [hop] at hp hx
    dsimp only at hp hx
    cases hk : t.kind with
    | start =>
      rw [Called, hk] at hp
      exact Ready.left hp
    | resume token old =>
      rw [Task.isStart, hk] at hx
      cases hx
  | appended t new =>
    rw [hop] at hp hx
    dsimp only at hp hx
    cases hk : t.kind with
    | start =>
      rw [Appended, hk] at hp
      exact Ready.left hp.2.2
    | resume token old =>
      rw [Task.isStart, hk] at hx
      cases hx
  | launching t new | rollingBack t new reconnect =>
    rw [hop] at hp hx
    dsimp only at hp hx ⊢
    cases hk : t.kind with
    | start =>
      rw [Task.isStart, hk] at hx
      cases hx
    | resume token old =>
      rw [Launched, hk] at hp
      rw [hx]
      exact ⟨hp.balanced, hp.made_holds⟩
  | finishing t new =>
    rw [hop] at hp hx
    dsimp only at hp hx
    rw [hp.2] at hx
    cases hx
  | pruning t reconnect =>
    rw [hop] at hp hx
    dsimp only at hp hx ⊢
    cases hk : t.kind with
    | start =>
      rw [Raised, hk] at hp
      rw [State.pruned, hk]
      exact Ready.left hp
    | resume token old =>
      rw [Raised, hk] at hp
      rw [State.pruned, hk]
      rw [Task.isStart, Task.run, hk, Bool.not_false, Bool.true_and] at hx
      dsimp only at hp ⊢
      cases hf : s.memory.find? fun r => decide (r.run = some token) with
      | some r =>
        obtain ⟨he, hrun⟩ := run_some hf
        rcases hp with ⟨new, hm⟩ | ⟨-, hu⟩
        · exact ⟨hm.balanced, hm.holds he hrun⟩
        · exact absurd hrun (hu _ he)
      | none =>
        -- No record has the token, so the place is exposed.
        have hall : (s.memory.all fun r => decide (r.run ≠ some token)) :=
          List.all_eq_true.mpr fun r hr => decide_eq_true (run_none hf _ (mem_entries hr))
        rw [hall] at hx
        cases hx

theorem Inv.killed (h : Inv n s) (hx : s.exposed = false) : Inv n s.killed := by
  have hE := h.entries_file
  exact
    { ids := by
        change ((entries s.file).map Entry.id).Nodup
        rw [hE]
        exact h.ids
      linked := by
        change ∀ e ∈ entries s.file, _
        rw [hE]
        exact h.linked
      saved := rfl
      named := fun c hc => h.named_file hc
      emptied := Emptied.none rfl
      place := by
        change (Balanced n (entries s.file) s.attempts fun _ => 0) ∧
          Answered (entries s.file) s.left
        rw [hE]
        exact h.left hx }

theorem Inv.cancelled (h : Inv n s) (hx : s.exposed = false) (hs : s.cancelled = some s') :
    Inv n s' := by
  have hl := h.left hx
  unfold State.cancelled at hs
  unfold State.left at hl
  split at hs
  case h_9 => cases hs
  all_goals
    rename_i hop
    rw [hop] at hl
    cases hs
  case h_6 | h_7 =>
    exact h.put (f := Record.withStatus .recovering) (fun _ => rfl) (fun _ => rfl) _
      (Emptied.none rfl) hl
  all_goals exact h.turn (Emptied.none rfl) hl

/-! ### An operation begins -/

theorem launchBody_recordId {x y : Settings I κ} {req : Request} (h : launchBody x req = some y) :
    y.recordId = x.recordId := by
  obtain ⟨args, -, rfl⟩ := Option.map_eq_some_iff.mp h
  rfl

theorem Inv.startRelaunch (h : Inv n s) (hop : s.op = .idle) {req : Request}
    (hs : s.startRelaunch id req = some s') : Inv n s' := by
  have hp := h.place
  rw [Place, hop] at hp
  obtain ⟨r, hf, hs⟩ := Option.bind_eq_some_iff.mp hs
  obtain ⟨x, hx, hs⟩ := Option.bind_eq_some_iff.mp hs
  obtain ⟨hmem, hid⟩ := find_some hf
  split at hs
  case isFalse => cases hs
  obtain ⟨body, hb, rfl⟩ := Option.map_eq_some_iff.mp hs
  have hset : r.settings.isSome := by rw [hx]; rfl
  have hrec : body.recordId = r.recordId :=
    (launchBody_recordId hb).trans (h.linked _ (mem_entries hmem) x hx)
  have hready : Ready n (entries s.memory) s.attempts (⟨id, .start, body⟩ : Task I C κ) :=
    { balanced := hp.1
      holds := ⟨r.entry, mem_entries hmem, hid, hrec.symm, hset⟩
      unused := fun token ht => by cases ht }
  cases hd : req.drift with
  | true =>
    rw [if_pos rfl]
    exact h.put (f := Record.withStatus .starting) (fun _ => rfl) (fun _ => rfl) id
      (Emptied.none rfl) ⟨hready, rfl⟩
  | false =>
    rw [if_neg Bool.false_ne_true]
    exact h.turn (Emptied.none rfl) ⟨hready, rfl⟩

theorem Inv.startResume (h : Inv n s) (hop : s.op = .idle)
    (hs : s.startResume id token = some s') : Inv n s' := by
  have hp := h.place
  rw [Place, hop] at hp
  obtain ⟨r, hf, hs⟩ := Option.bind_eq_some_iff.mp hs
  obtain ⟨x, hx, hs⟩ := Option.bind_eq_some_iff.mp hs
  obtain ⟨hmem, hid⟩ := find_some hf
  obtain ⟨hok, hs⟩ := Option.ite_none_right_eq_some.mp hs
  have hset : r.settings.isSome := by rw [hx]; rfl
  have hready : Ready n (entries s.memory) s.attempts
      (⟨id, .resume token r, { x with recordId := r.recordId }⟩ : Task I C κ) :=
    { balanced := hp.1
      holds := ⟨r.entry, mem_entries hmem, hid, rfl, hset⟩
      unused := fun token' ht e he => by
        obtain rfl : token = token' := Option.some.inj ht
        obtain ⟨y, hy, rfl⟩ := of_mem_entries he
        exact hok.2.2 y hy }
  dsimp only at hs
  split at hs
  case isTrue =>
    cases hs
    exact h.aborted hready
  case isFalse =>
    cases hs
    exact h.put (f := Record.withStatus .recovering) (fun _ => rfl) (fun _ => rfl) id
      (Emptied.none rfl) hready

/-! ## Runs -/

/-- **Every plain step keeps the invariant.** -/
theorem Inv.step {e : Event I C κ} (h : Inv n s) (hc : Plain s e)
    (hs : Relaunch.step s e = some s') : Inv n s' := by
  have hp := h.place
  have hemp := h.emptied
  unfold Place at hp
  cases e with
  | start id req =>
    simp only [Relaunch.step] at hs
    split at hs
    · next hop => exact h.startRelaunch hop hs
    · cases hs
  | resume id token =>
    simp only [Relaunch.step] at hs
    split at hs
    · next hop => exact h.startResume hop hs
    · cases hs
  | done =>
    simp only [Relaunch.step] at hs
    split at hs
    case h_1 t hop =>
      rw [hop] at hp
      cases hs
      exact h.put (f := fun r => { r with desired := .running }) (fun _ => rfl) (fun _ => rfl) t.id
        (Emptied.none rfl) hp.1
    case h_2 t hop =>
      rw [hop] at hp
      cases hs
      exact h.turn (Emptied.none rfl) hp
    case h_3 t hop =>
      rw [hop] at hp
      cases hs
      exact h.aborted hp
    case h_4 t new reconnect hop =>
      rw [hop] at hp
      cases hs
      exact h.rolledBack hp reconnect
    case h_5 t new hop =>
      rw [hop] at hp
      cases hs
      exact h.finished hop hp.1 hp.2
    case h_6 t reconnect hop =>
      rw [hop] at hp
      cases hs
      exact h.settle hp reconnect
    case h_7 => cases hs
  | raises reconnect =>
    simp only [Relaunch.step] at hs
    split at hs
    case h_1 t hop =>
      rw [hop] at hp
      cases hs
      exact h.turn (Emptied.none rfl) hp.1.left
    case h_2 t hop =>
      rw [hop] at hp
      cases hs
      split
      · exact h.deferred hp.balanced hp.holds
      · exact h.aborted hp
    case h_3 t hop =>
      rw [hop] at hp
      cases hs
      exact h.failed hp.raised reconnect
    case h_4 t new hop =>
      rw [hop] at hp
      cases hs
      -- A plain run meets this in a relaunch only.
      have hstart : t.isStart := by
        change (match s.op with
          | .appended t _ => t.isStart
          | _ => True) at hc
        rw [hop] at hc
        exact hc
      refine h.failed ?_ reconnect
      cases hk : t.kind with
      | start =>
        dsimp only at hp
        rw [Appended, hk] at hp
        rw [Raised, hk]
        exact hp.2.2
      | resume token old =>
        rw [Task.isStart_resume hk] at hstart
        cases hstart
    case h_5 => cases hs
  | removed c =>
    simp only [Relaunch.step] at hs
    split at hs
    case h_1 t hop | h_2 t new reconnect hop =>
      obtain ⟨_, rfl⟩ := guard_some hs
      exact h.withoutContainer c
    case h_3 => cases hs
  | created c =>
    simp only [Relaunch.step] at hs
    split at hs
    case h_1 t new hop =>
      obtain ⟨ho, rfl⟩ := guard_some hs
      exact h.withContainer ho
    case h_2 => cases hs
  | gathered failure =>
    simp only [Relaunch.step] at hs
    split at hs
    case h_1 t hop =>
      rw [hop] at hp
      obtain ⟨hcl, rfl⟩ := guard_some hs
      cases hk : t.kind with
      | start => exact h.empty hk hcl hp
      | resume token old => exact h.takeOut hk hcl hp
    case h_2 t reconnect hop =>
      rw [hop] at hp
      cases hs
      unfold State.removalFailed
      split
      · exact h.deferred hp.balanced hp.holds
      · split
        · exact h.turn (Emptied.none rfl) hp
        · exact h.aborted hp
    case h_3 t new hop =>
      rw [hop] at hp
      cases hs
      exact h.launched hop hp
    case h_4 t new reconnect hop =>
      rw [hop] at hp
      cases hs
      exact h.launchFailed hop hp reconnect
    case h_5 => cases hs
  | accepted new =>
    simp only [Relaunch.step] at hs
    split at hs
    case h_1 t hop =>
      rw [hop] at hp hemp
      obtain ⟨hok, rfl⟩ := guard_some hs
      exact h.accept hemp hp hok.1 hok.2
    case h_2 => cases hs
  | named members plan =>
    simp only [Relaunch.step] at hs
    split at hs
    case h_1 t new hop =>
      rw [hop] at hp hemp
      cases hs
      exact h.fill hemp hp members plan
    case h_2 => cases hs
  | cancel => exact h.cancelled hc hs
  | kill =>
    cases hs
    exact h.killed hc

theorem Start.inv (h : Start s) : Inv (fun c => carriers c s.memory) s where
  ids := by
    have hids := h.ids
    unfold entries
    rw [List.map_map]
    exact hids
  linked e he x hx := by
    obtain ⟨r, hr, rfl⟩ := of_mem_entries he
    exact h.linked r hr x hx
  saved := congrArg _ h.saved
  named c hc := by
    rw [h.saved]
    exact h.named c hc
  emptied := Emptied.none (by rw [h.op]; rfl)
  place := by
    rw [Place, h.op, h.answer, h.attempts]
    refine ⟨fun c => ?_, trivial⟩
    have hc := carriers_entries c s.memory
    change _ = (carriers c s.memory : ℤ) + ((([] : List (Option I)).count (some c) : ℕ) : ℤ) + 0
    rw [List.count_nil]
    omega

/-- Settings, and a selection of nodes, are all a relaunch needs. -/
theorem Base.retries (h : Base s) (hh : Holds (entries s.memory) id card) (hop : s.op = .idle) :
    s.retries id := by
  intro req hn hrev
  obtain ⟨r, hf, -, -, hset⟩ := h.found hh
  obtain ⟨x, hx⟩ := Option.isSome_iff_exists.mp hset
  have hre : relaunches r req := by
    unfold relaunches
    rw [show (!req.nodeIds.isEmpty) = true by simpa using hn, Bool.or_true, Bool.true_or,
      Bool.true_or]
  obtain ⟨body, hb⟩ : ∃ body, launchBody x req = some body := by
    unfold launchBody
    rw [hrev]
    exact ⟨_, rfl⟩
  have hstart : s.startRelaunch id req =
      some ((if req.drift then s.save (modify s.memory id (Record.withStatus .starting)) else s).goTo
        (.checking ⟨id, .start, body⟩)) := by
    unfold State.startRelaunch
    rw [hf, Option.bind_some, hx, Option.bind_some, if_pos hre, hb, Option.map_some]
  simp only [Relaunch.step]
  rw [hop]
  dsimp only
  rw [hstart]
  rfl

/-- A saved record, as it is said outside. -/
theorem Base.saved_record (h : Base s) (hh : Holds (entries s.memory) id card) :
    ∃ r ∈ s.file, r.id = id ∧ r.recordId = card ∧ r.settings.isSome := by
  rw [← h.entries_file] at hh
  obtain ⟨e, he, hid, hrec, hset⟩ := hh
  obtain ⟨r, hr, rfl⟩ := of_mem_entries he
  exact ⟨r, hr, hid, hrec, hset⟩

theorem Inv.answered (h : Inv n s) (hop : s.op = .idle) : s.answered := by
  have hp := h.place
  rw [Place, hop] at hp
  have ha := hp.2
  unfold Answered at ha
  unfold State.answered
  split at ha
  case h_1 he => trivial
  case h_2 old new card he =>
    refine ⟨h.saved_record ha.1, fun r hr => ?_⟩
    have hmem : r.entry ∈ entries s.memory := by
      rw [← h.entries_file]
      exact mem_entries hr
    exact ha.2 _ hmem
  case h_3 id card he =>
    exact ⟨h.saved_record ha, h.retries ha hop⟩

/-- **The card of a deployment is kept.** -/
theorem card_kept {s₀ s : State I C κ} (h₀ : Start s₀) (hr : Reach step Plain s₀ s) :
    (∀ c ∈ s.containers, Named s.file c) ∧
      (s.op = .idle →
        (∀ card, carriers card s.file = carriers card s₀.file + s.attempts.count (some card)) ∧
          s.answered) := by
  have hi : Inv (fun c => carriers c s₀.memory) s :=
    hr.invariant h₀.inv fun _ _ _ ha hc he => ha.step hc he
  refine ⟨fun c hc => hi.named_file hc, fun hop => ⟨fun card => ?_, hi.answered hop⟩⟩
  have hp := hi.place
  rw [Place, hop] at hp
  have hb := hp.1 card
  dsimp only at hb
  rw [carriers_entries, hi.entries_file, ← h₀.saved]
  omega

/-! ## Two runs -/

instance (s : State I C κ) (e : Event I C κ) : Decidable (Plain s e) :=
  match e with
  | .start _ _ => isTrue trivial
  | .resume _ _ => isTrue trivial
  | .done => isTrue trivial
  | .raises _ =>
    match h : s.op with
    | .appended t _ => decidable_of_iff (t.isStart) (by simp only [Plain, h])
    | .idle => isTrue (by simp only [Plain, h])
    | .checking _ => isTrue (by simp only [Plain, h])
    | .selecting _ => isTrue (by simp only [Plain, h])
    | .removing _ => isTrue (by simp only [Plain, h])
    | .reclaiming _ => isTrue (by simp only [Plain, h])
    | .accepting _ => isTrue (by simp only [Plain, h])
    | .launching _ _ => isTrue (by simp only [Plain, h])
    | .rollingBack _ _ _ => isTrue (by simp only [Plain, h])
    | .finishing _ _ => isTrue (by simp only [Plain, h])
    | .pruning _ _ => isTrue (by simp only [Plain, h])
  | .removed _ => isTrue trivial
  | .created _ => isTrue trivial
  | .gathered _ => isTrue trivial
  | .accepted _ => isTrue trivial
  | .named _ _ => isTrue trivial
  | .cancel => inferInstanceAs (Decidable (s.exposed = false))
  | .kill => inferInstanceAs (Decidable (s.exposed = false))

/-- The settings of card 7. -/
def seven : Settings ℕ Unit := ⟨some 7, "m", "vllm", ["local"], "single", [], ()⟩

/-- A stopped deployment whose settings were edited. -/
def edited : State ℕ ℕ Unit where
  memory := [⟨0, some 7, some seven, .stopped, .stopped, true, [⟨0, false⟩], none⟩]
  file := [⟨0, some 7, some seven, .stopped, .stopped, true, [⟨0, false⟩], none⟩]
  containers := [0]
  op := .idle
  answer := none
  attempts := []

theorem edited_start : Start edited where
  op := rfl
  saved := rfl
  ids := List.nodup_singleton 0
  linked := by
    intro r hr x hx
    rw [List.mem_singleton.mp hr] at hx ⊢
    cases hx
    rfl
  named := by
    intro c hc
    obtain rfl := List.mem_singleton.mp hc
    exact ⟨_, List.mem_cons_self, ⟨0, false⟩, List.mem_cons_self, rfl⟩
  answer := rfl
  attempts := rfl

/-- The relaunch, up to the creation of the member of the new record. -/
def relaunch : List (Event ℕ ℕ Unit) :=
  [.start 0 ⟨[], none, none, false⟩, .done, .removed 0, .gathered none, .accepted 1,
    .named [⟨1, false⟩] seven]

/-- The member is created, and the replacement takes the card. -/
theorem card_kept_replaced : ∃ s : State ℕ ℕ Unit, s.op = .idle ∧
    s.answer = some (.replaced 0 1 (some 7)) ∧
    ∀ card, carriers card s.file = carriers card edited.file + s.attempts.count (some card) := by
  obtain ⟨s, hr, hp⟩ := reach_any
    (p := fun s : State ℕ ℕ Unit =>
      decide (s.op = .idle) && decide (s.answer = some (.replaced 0 1 (some 7))))
    (show (replay step Plain edited (relaunch ++ [.created 1, .gathered none, .done])).any _ = true
      by decide)
  rw [Bool.and_eq_true] at hp
  have hop := of_decide_eq_true hp.1
  exact ⟨s, hop, of_decide_eq_true hp.2, ((card_kept edited_start hr).2 hop).1⟩

/-- The member fails: the card has two records. -/
theorem second_card : Start edited ∧ carriers 7 edited.file = 1 ∧
    ∃ s, Reach step Free edited s ∧ s.op = .idle ∧ carriers 7 s.file = 2 := by
  obtain ⟨s, hr, hp⟩ := reach_any
    (p := fun s : State ℕ ℕ Unit => decide (s.op = .idle) && decide (carriers 7 s.file = 2))
    (show (replay step Free edited (relaunch ++ [.gathered (some false), .done])).any _ = true
      by decide)
  rw [Bool.and_eq_true] at hp
  exact ⟨edited_start, rfl, s, hr, of_decide_eq_true hp.1, of_decide_eq_true hp.2⟩

end SparkDeck.Relaunch
