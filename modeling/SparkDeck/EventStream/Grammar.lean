import SparkDeck.EventStream.Translate

/-!
# Well formed events of a response

* `WellFormed`: the numbers of the events, the opening and the terminal ones, and the events about
  the items of the final response (`Items`).
* `Opened`, `closing`: the events of an item before and while it is closed; `Told` is both.
* `items_of_told`: when the events about each item are what is told of it, they are as `Items`
  wants them.
-/

namespace SparkDeck.EventStream

open Responses (CallItem Part Status)

/-! ## The grammar -/

/-- What the text of an item is. -/
inductive Channel where
  | text
  | refusal
  | arguments
  | input

def Part.channel (part : Part) : Channel := if part.refusal then .refusal else .text

def Entry.channel : Entry → Option Channel
  | .message _ _ content => content.head?.map Part.channel
  | .call _ c => some (if c.custom then .input else .arguments)

/-- The text, refusal, arguments or input. -/
def Entry.text : Entry → Option String
  | .message _ _ content => content.head?.map (·.text)
  | .call _ c => c.value

variable {V : Type}

namespace Event

/-- The id and the `output_index` of the item an event is about. -/
def item : Event V → Option (ℕ × ℕ)
  | .itemAdded i entry | .itemDone i entry => some (entry.id, i)
  | .partAdded id i _ | .textDelta id i _ _ | .callDelta id i _ _ | .callDone id i _ _
  | .textDone id i _ | .partDone id i _ => some (id, i)
  | .created _ | .inProgress _ | .terminal _ => none

def isTerminal : Event V → Bool
  | .terminal _ => true
  | _ => false

def isAdded : Event V → Bool
  | .itemAdded _ _ => true
  | _ => false

def isDone : Event V → Bool
  | .itemDone _ _ => true
  | _ => false

/-- The payload of a delta. -/
def delta : Event V → Option (Channel × String)
  | .textDelta _ _ refusal t => some (if refusal then .refusal else .text, t)
  | .callDelta _ _ custom t => some (if custom then .input else .arguments, t)
  | _ => none

/-- What an event of the end of an item says its text is. -/
def doneText : Event V → Option (Channel × Option String)
  | .callDone _ _ custom t => some (if custom then .input else .arguments, some t)
  | .textDone _ _ part | .partDone _ _ part => some (Part.channel part, some part.text)
  | .itemDone _ entry => entry.channel.map fun c => (c, entry.text)
  | _ => none

end Event

/-- The events about one item. -/
def about (id : ℕ) (events : List (Event V)) : List (Event V) :=
  events.filter fun e => e.item.map Prod.fst = some id

def joined (l : List String) : String := l.foldr (· ++ ·) ""

/-- The events between the opening ones and the terminal one, whose response is `last`. -/
structure Items (events : List (Event V)) (last : Snapshot V) : Prop where
  /-- An `output_index` is the position of the item. -/
  position : ∀ e ∈ events, ∀ x, e.item = some x → (last.output.map Entry.id)[x.2]? = some x.1
  added : ∀ entry ∈ last.output, (about entry.id events).countP Event.isAdded = 1
  before : ∀ pre e post, events = pre ++ e :: post → e.delta.isSome → ∀ x, e.item = some x →
    ∃ a ∈ pre, a.isAdded ∧ a.item.map Prod.fst = some x.1
  done : last.status ≠ .failed →
    ∀ entry ∈ last.output, (about entry.id events).countP Event.isDone = 1
  /-- The deltas of an item are its text, and so are its `done` events. -/
  text : ∀ entry ∈ last.output,
    entry.text = some (joined ((about entry.id events).filterMap fun e => e.delta.map Prod.snd)) ∧
      (∀ e ∈ about entry.id events, ∀ x, e.delta = some x → entry.channel = some x.1) ∧
      ∀ e ∈ about entry.id events, ∀ x, e.doneText = some x →
        entry.channel = some x.1 ∧ entry.text = x.2

/-- A well formed sequence of events. -/
structure WellFormed (emitted : List (ℕ × Event V)) : Prop where
  numbers : emitted.map Prod.fst = List.range emitted.length
  sequence : ∃ first events last,
    emitted.map Prod.snd = .created first :: .inProgress first :: (events ++ [.terminal last]) ∧
      (∀ e ∈ events, e.isTerminal = false ∧ (∀ s, e ≠ .created s) ∧ ∀ s, e ≠ .inProgress s) ∧
      (last.status = .completed ∨ last.status = .incomplete ∨ last.status = .failed) ∧
      (last.output.map Entry.id).Nodup ∧ Items events last

/-! ## Segments -/

/-- The events of an item before it is closed. -/
inductive Opened (i : ℕ) : Entry → List (Event V) → Prop where
  | message (id : ℕ) (refusal : Bool) (deltas : List String) :
      Opened i (.message id .inProgress [⟨refusal, joined deltas⟩])
        (.itemAdded i (.message id .inProgress []) :: .partAdded id i ⟨refusal, ""⟩ ::
          deltas.map (.textDelta id i refusal))
  | call (id : ℕ) (c : CallItem) (t : String) (h : c.value = some t) :
      Opened i (.call id c)
        [.itemAdded i (.call id { c with value := some "" }), .callDelta id i c.custom t,
          .callDone id i c.custom t]

/-- The events that close an item. -/
def closing (i : ℕ) : Entry → List (Event V)
  | .message id status content =>
    content.head?.toList.flatMap (fun part => [.textDone id i part, .partDone id i part]) ++
      [.itemDone i (.message id status content)]
  | .call id c => [.itemDone i (.call id c)]

variable {i : ℕ} {entry : Entry} {seg opened closed : List (Event V)} {out : List Entry}
  {status : Status}

variable {e : Event V}

theorem opened_item (h : Opened i entry seg) (he : e ∈ seg) : e.item = some (entry.id, i) := by
  cases h with
  | message id refusal deltas =>
    rcases List.mem_cons.mp he with rfl | he
    · rfl
    · rcases List.mem_cons.mp he with rfl | he
      · rfl
      · obtain ⟨t, -, rfl⟩ := List.mem_map.mp he
        rfl
  | call id c t h =>
    simp only [List.mem_cons, List.not_mem_nil, or_false] at he
    rcases he with rfl | rfl | rfl <;> rfl

theorem closing_item (he : e ∈ closing i entry) : e.item = some (entry.id, i) := by
  cases entry with
  | message id status content =>
    rcases List.mem_append.mp he with he | he
    · obtain ⟨part, -, he⟩ := List.mem_flatMap.mp he
      simp only [List.mem_cons, List.not_mem_nil, or_false] at he
      rcases he with rfl | rfl <;> rfl
    · rw [List.mem_singleton.mp he]
      rfl
  | call id c =>
    rw [List.mem_singleton.mp he]
    rfl

theorem opened_added (h : Opened i entry seg) : seg.countP Event.isAdded = 1 := by
  cases h with
  | message id refusal deltas =>
    have hdeltas :
        (deltas.map (Event.textDelta (V := V) id i refusal)).countP Event.isAdded = 0 := by
      refine List.countP_eq_zero.mpr fun e he => ?_
      obtain ⟨t, -, rfl⟩ := List.mem_map.mp he
      simp [Event.isAdded]
    simp [List.countP_cons, hdeltas, Event.isAdded]
  | call => rfl

theorem opened_done (h : Opened i entry seg) : seg.countP Event.isDone = 0 := by
  refine List.countP_eq_zero.mpr fun e he => ?_
  cases h with
  | message id refusal deltas =>
    rcases List.mem_cons.mp he with rfl | he
    · simp [Event.isDone]
    · rcases List.mem_cons.mp he with rfl | he
      · simp [Event.isDone]
      · obtain ⟨t, -, rfl⟩ := List.mem_map.mp he
        simp [Event.isDone]
  | call id c t h =>
    simp only [List.mem_cons, List.not_mem_nil, or_false] at he
    rcases he with rfl | rfl | rfl <;> simp [Event.isDone]

theorem opened_text (h : Opened i entry seg) :
    entry.text = some (joined (seg.filterMap fun e => e.delta.map Prod.snd)) := by
  cases h with
  | message id refusal deltas =>
    have hdeltas : (deltas.map (Event.textDelta (V := V) id i refusal)).filterMap
        (fun e => e.delta.map Prod.snd) = deltas := by
      rw [List.filterMap_map]
      exact List.filterMap_some
    rw [List.filterMap_cons_none rfl, List.filterMap_cons_none rfl, hdeltas]
    rfl
  | call id c t h =>
    simp [Event.delta, Entry.text, h, joined]

theorem opened_channel (h : Opened i entry seg) (he : e ∈ seg) {x : Channel × String}
    (hx : e.delta = some x) : entry.channel = some x.1 := by
  cases h with
  | message id refusal deltas =>
    rcases List.mem_cons.mp he with rfl | he
    · cases hx
    · rcases List.mem_cons.mp he with rfl | he
      · cases hx
      · obtain ⟨t, -, rfl⟩ := List.mem_map.mp he
        cases hx
        rfl
  | call id c t h =>
    simp only [List.mem_cons, List.not_mem_nil, or_false] at he
    rcases he with rfl | rfl | rfl
    · cases hx
    · cases hx
      rfl
    · cases hx

variable {x : Channel × Option String}

theorem opened_doneText (h : Opened i entry seg) (he : e ∈ seg) (hx : e.doneText = some x) :
    entry.channel = some x.1 ∧ entry.text = x.2 := by
  cases h with
  | message id refusal deltas =>
    rcases List.mem_cons.mp he with rfl | he
    · cases hx
    · rcases List.mem_cons.mp he with rfl | he
      · cases hx
      · obtain ⟨t, -, rfl⟩ := List.mem_map.mp he
        cases hx
  | call id c t h =>
    simp only [List.mem_cons, List.not_mem_nil, or_false] at he
    rcases he with rfl | rfl | rfl
    · cases hx
    · cases hx
    · cases hx
      exact ⟨rfl, h⟩

/-- An event that closes an item. -/
theorem closing_cases (he : e ∈ closing i entry) :
    e = .itemDone i entry ∨
      ∃ id status part rest, entry = .message id status (part :: rest) ∧
        (e = .textDone id i part ∨ e = .partDone id i part) := by
  cases entry with
  | message id status content =>
    rcases List.mem_append.mp he with he | he
    · obtain ⟨part, hp, he⟩ := List.mem_flatMap.mp he
      cases content with
      | nil => cases hp
      | cons part' rest =>
        obtain rfl := List.mem_singleton.mp hp
        have hpart : e ∈ [Event.textDone id i part, .partDone id i part] := he
        simp only [List.mem_cons, List.not_mem_nil, or_false] at hpart
        exact Or.inr ⟨id, status, part, rest, rfl, hpart⟩
    · exact Or.inl (List.mem_singleton.mp he)
  | call id c => exact Or.inl (List.mem_singleton.mp he)

theorem closing_added : (closing (V := V) i entry).countP Event.isAdded = 0 := by
  refine List.countP_eq_zero.mpr fun e he => ?_
  rcases closing_cases he with rfl | ⟨id, status, part, rest, -, rfl | rfl⟩ <;> simp [Event.isAdded]

theorem closing_done : (closing (V := V) i entry).countP Event.isDone = 1 := by
  cases entry with
  | message id status content =>
    cases content <;> rfl
  | call id c => rfl

theorem closing_delta (he : e ∈ closing i entry) : e.delta = none := by
  rcases closing_cases he with rfl | ⟨id, status, part, rest, -, rfl | rfl⟩ <;> rfl

theorem closing_doneText (he : e ∈ closing i entry) (hx : e.doneText = some x) :
    entry.channel = some x.1 ∧ entry.text = x.2 := by
  rcases closing_cases he with rfl | ⟨id, status, part, rest, rfl, rfl | rfl⟩
  · obtain ⟨c, hc, rfl⟩ := Option.map_eq_some_iff.mp hx
    exact ⟨hc, rfl⟩
  · cases hx
    exact ⟨rfl, rfl⟩
  · cases hx
    exact ⟨rfl, rfl⟩

/-! ## Items from segments -/

/-- What is told about an item: it was opened, and closed unless the response has failed. -/
inductive Told (i : ℕ) (entry : Entry) (failed : Prop) : List (Event V) → Prop where
  | mk (before : Entry) (opened closed : List (Event V)) : Opened i before opened →
      entry.channel = before.channel → entry.text = before.text →
      closed = closing i entry ∨ failed ∧ closed = [] → Told i entry failed (opened ++ closed)

section

variable {failed : Prop}

theorem mem_of_closed (h : closed = closing i entry ∨ failed ∧ closed = []) (he : e ∈ closed) :
    e ∈ closing i entry := by
  rcases h with rfl | ⟨-, rfl⟩
  · exact he
  · cases he

theorem Told.added (h : Told i entry failed seg) : seg.countP Event.isAdded = 1 := by
  obtain ⟨before, opened, closed, hopen, -, -, hclose⟩ := h
  have hclosed : closed.countP Event.isAdded = 0 := by
    rcases hclose with rfl | ⟨-, rfl⟩
    · exact closing_added
    · rfl
  rw [List.countP_append, opened_added hopen, hclosed]

theorem Told.done (h : Told i entry failed seg) (hf : ¬failed) : seg.countP Event.isDone = 1 := by
  obtain ⟨before, opened, closed, hopen, -, -, hclose⟩ := h
  obtain rfl := hclose.resolve_right fun hc => hf hc.1
  rw [List.countP_append, opened_done hopen, closing_done]

theorem Told.deltas (h : Told i entry failed seg) :
    entry.text = some (joined (seg.filterMap fun e => e.delta.map Prod.snd)) := by
  obtain ⟨before, opened, closed, hopen, -, htext, hclose⟩ := h
  have hclosed : closed.filterMap (fun e => e.delta.map Prod.snd) = [] := by
    refine List.filterMap_eq_nil_iff.mpr fun e he => ?_
    rw [closing_delta (mem_of_closed hclose he)]
    rfl
  rw [htext, opened_text hopen, List.filterMap_append, hclosed, List.append_nil]

theorem Told.delta (h : Told i entry failed seg) (he : e ∈ seg) {x : Channel × String}
    (hx : e.delta = some x) : entry.channel = some x.1 := by
  obtain ⟨before, opened, closed, hopen, hchannel, -, hclose⟩ := h
  rcases List.mem_append.mp he with he | he
  · rw [hchannel, opened_channel hopen he hx]
  · rw [closing_delta (mem_of_closed hclose he)] at hx
    cases hx

theorem Told.doneText (h : Told i entry failed seg) (he : e ∈ seg) (hx : e.doneText = some x) :
    entry.channel = some x.1 ∧ entry.text = x.2 := by
  obtain ⟨before, opened, closed, hopen, hchannel, htext, hclose⟩ := h
  rcases List.mem_append.mp he with he | he
  · rw [hchannel, htext]
    exact opened_doneText hopen he hx
  · exact closing_doneText (mem_of_closed hclose he) hx

/-- What is told of an item starts with its being added. -/
theorem Told.head (h : Told i entry failed seg) :
    ∃ e rest, seg = e :: rest ∧ e.isAdded := by
  obtain ⟨before, opened, closed, hopen, -, -, -⟩ := h
  cases hopen with
  | message id refusal deltas | call id c t h => exact ⟨_, _, rfl, rfl⟩

end

theorem not_added_of_delta (h : e.delta.isSome) : e.isAdded = false := by
  cases e <;> first | rfl | cases h

variable {events : List (Event V)}

theorem mem_about {id : ℕ} : e ∈ about id events ↔ e ∈ events ∧ e.item.map Prod.fst = some id := by
  simp [about]

theorem items_of_told {last : Snapshot V}
    (hmem : ∀ e ∈ events, ∃ i entry, last.output[i]? = some entry ∧ e.item = some (entry.id, i))
    (htold : ∀ i entry, last.output[i]? = some entry → Told i entry (last.status = .failed) (about entry.id events)) :
    Items events last where
  position e he x hx := by
    obtain ⟨i, entry, hi, hitem⟩ := hmem e he
    cases hitem.symm.trans hx
    rw [List.getElem?_map, hi]
    rfl
  added entry hentry := by
    obtain ⟨i, hi⟩ := List.mem_iff_getElem?.mp hentry
    exact (htold i entry hi).added
  before pre e post hsplit hdelta x hx := by
    obtain ⟨i, entry, hi, hitem⟩ := hmem e (by rw [hsplit]; simp)
    cases hitem.symm.trans hx
    obtain ⟨head, rest, hhead, hadded⟩ := (htold i entry hi).head
    have habout : about entry.id events = about entry.id pre ++ e :: about entry.id post := by
      rw [hsplit, about, List.filter_append, List.filter_cons_of_pos (by simp [hitem])]
      rfl
    rw [habout] at hhead
    cases hpre : about entry.id pre with
    | nil =>
      rw [hpre] at hhead
      obtain ⟨rfl, -⟩ := List.cons.inj hhead
      rw [not_added_of_delta hdelta] at hadded
      cases hadded
    | cons a l =>
      rw [hpre] at hhead
      obtain ⟨rfl, -⟩ := List.cons.inj hhead
      obtain ⟨ha, hid⟩ := mem_about.mp (hpre ▸ List.mem_cons_self .. : a ∈ about entry.id pre)
      exact ⟨a, ha, hadded, hid⟩
  done hs entry hentry := by
    obtain ⟨i, hi⟩ := List.mem_iff_getElem?.mp hentry
    exact (htold i entry hi).done hs
  text entry hentry := by
    obtain ⟨i, hi⟩ := List.mem_iff_getElem?.mp hentry
    have h := (htold i entry hi)
    exact ⟨h.deltas, fun e he x hx => h.delta he hx, fun e he x hx => h.doneText he hx⟩

end SparkDeck.EventStream
