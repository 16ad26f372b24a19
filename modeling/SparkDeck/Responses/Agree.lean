import SparkDeck.Responses.Nulls

/-!
# Streams and complete messages

When the response of a stream is that of the complete message.

* `Splits` says that a stream carries a completion in fragments, and `Carries` that a payload is the
  complete message.
* `Runs` is what the loop does with a piece of the stream whose texts are of one kind: where no
  `null` stands for a list or an object, its fragments are appended to what was there; otherwise it
  fails. It composes (`Runs.andThen`), so `body_runs` follows by induction.
* `publish_eq`: the assembled calls are translated like those of a complete message.
* `translations_agree_iff` puts the two together.
-/

namespace SparkDeck.Responses

open Gather

/-! ## Fragments -/

/-- The fragments in a row. -/
def joined (l : List String) : String := l.foldr (· ++ ·) ""

theorem joined_append (l l' : List String) : joined (l ++ l') = joined l ++ joined l' := by
  induction l with
  | nil => exact String.empty_append.symm
  | cons s l ih =>
    change s ++ joined (l ++ l') = s ++ joined l ++ joined l'
    rw [ih, String.append_assoc]

theorem joined_eq_empty {l : List String} (h : joined l = "") : ∀ s ∈ l, s = "" := by
  induction l with
  | nil => exact fun s hs => absurd hs List.not_mem_nil
  | cons a l ih =>
    obtain ⟨ha, hl⟩ := String.append_eq_empty_iff.mp h
    rintro s (_ | ⟨_, hs⟩)
    · exact ha
    · exact ih hl s hs

/-- The chunks before the end marker. -/
def live : List Datum → List Chunk
  | .chunk c :: rest => c :: live rest
  | _ => []

/-- Every payload before the end marker is a chunk without an error. -/
def intact : List Datum → Bool
  | [] => true
  | .done :: _ => true
  | .broken _ :: _ => false
  | .chunk c :: rest => c.error.isNone && intact rest

def StreamChoice.deltas (c : StreamChoice) : List Delta :=
  if c.index.getD 0 ≠ 0 then [] else [c.delta.get?.getD Delta.empty]

def StreamChoice.finishes (c : StreamChoice) : List String :=
  if c.index.getD 0 ≠ 0 then [] else (truthy c.finishReason).toList

def Delta.calls (d : Delta) : List CallDelta := d.toolCalls.get?.getD []

def Chunk.deltas (c : Chunk) : List Delta := (c.choices.get?.getD []).flatMap StreamChoice.deltas

def Chunk.finishes (c : Chunk) : List String :=
  (c.choices.get?.getD []).flatMap StreamChoice.finishes

/-- The usage of a chunk, where it is true. -/
def Chunk.usages (c : Chunk) : List UsageOut :=
  ((c.usage.get?.filter Usage.isTrue).map Responses.usage).toList

def deltasOf (data : List Datum) : List Delta := (live data).flatMap Chunk.deltas
def finishesOf (data : List Datum) : List String := (live data).flatMap Chunk.finishes
def usagesOf (data : List Datum) : List UsageOut := (live data).flatMap Chunk.usages

/-- The deltas of the calls, each with its index. -/
def callsOf (ds : List Delta) : List (ℤ × CallDelta) :=
  (ds.flatMap Delta.calls).map fun d => (d.index.getD 0, d)

/-! ## Completions -/

inductive Body where
  | text (t : String)
  | refusal (t : String)
  | nothing

def Body.content : Body → Option String
  | text t => some t
  | _ => none

def Body.refused : Body → String
  | refusal t => t
  | _ => ""

/-- A complete message; a field of a call that is absent is empty. -/
structure Completion where
  body : Body
  calls : List CallState
  finish : String
  usage : Option Usage

def Completion.call (m : Completion) (index : ℤ) : CallState :=
  m.calls.getD index.toNat CallState.empty

/-- The stream carries the completion in fragments. -/
structure Splits (data : List Datum) (m : Completion) : Prop where
  intact : intact data
  content : joined ((deltasOf data).map fun d => orEmpty d.content) = m.body.content.getD ""
  refusal : joined ((deltasOf data).map fun d => orEmpty d.refusal) = m.body.refused
  indexes : ∀ i : ℤ, i ∈ (callsOf (deltasOf data)).map Prod.fst ↔ 0 ≤ i ∧ i < m.calls.length
  calls : ∀ i : ℤ, 0 ≤ i → i < m.calls.length →
    (valuesOf (callsOf (deltasOf data)) i).foldl CallState.add CallState.empty = m.call i
  finish : (finishesOf data).getLast? = some m.finish
  usage : ((live data).filterMap (·.usage.get?)).getLast? = m.usage

/-- A call of a complete message. -/
def ToolCall.strings (c : ToolCall) : CallState :=
  let function := c.function.get?.getD Function.empty
  ⟨orEmpty c.id, orEmpty function.name, orEmpty function.arguments⟩

/-- The payload is the complete message. -/
structure Carries (p : Payload) (m : Completion) : Prop where
  error : p.error = none
  usage : p.usage.get? = m.usage
  choice : ∃ choice rest, p.choices.get? = some (choice :: rest) ∧
    truthy choice.finishReason = some m.finish ∧
    ∃ message, choice.message.get Message.empty = some message ∧
      message.content.get? = m.body.content ∧ orEmpty message.refusal = m.body.refused ∧
      ∃ calls, message.toolCalls.get [] = some calls ∧ calls.map ToolCall.strings = m.calls ∧
        ∀ c ∈ calls, c.function ≠ .null ∧ c.written = true

/-- The terminal event's response is the complete message's; where that one is refused, the stream
fails with the same message. -/
def Agrees (customInput : String → Option String) (r : Request) (events : List Event)
    (p : Payload) : Prop :=
  ∃ last, events.getLast? = some (.terminal last) ∧
    match fromChatResponse customInput r p with
    | .ok resp => last = resp
    | .error f => last.status = .failed ∧ last.error = some (.upstreamError f.message)

/-! ## What the loop does with fragments of one kind -/

/-- No `null` stands for the list of the calls. -/
def Delta.Readable (d : Delta) : Prop := d.toolCalls ≠ .null

def StreamChoice.Readable (c : StreamChoice) : Prop :=
  c.index.getD 0 ≠ 0 ∨ c.delta ≠ .null ∧ (c.delta.get?.getD Delta.empty).Readable

/-- No `null` stands for a list or an object that the loop looks into. -/
def Chunk.Readable (c : Chunk) : Prop :=
  c.choices ≠ .null ∧ ∀ choice ∈ c.choices.get?.getD [], choice.Readable

/-- Texts are of the kind `b`: `true` for refusals. -/
def Delta.OfKind (b : Bool) (d : Delta) : Prop :=
  State.deltaText d ≠ "" → State.deltaRefusal d = b

def State.OfKind (b : Bool) (s : State) : Prop := ∀ k, s.kind = some k → k = b

/-- The message, with a text appended. -/
def grow (b : Bool) (m : Option Part) (t : String) : Option Part :=
  if t = "" then m else some ⟨b, (m.map (·.text)).getD "" ++ t⟩

theorem grow_grow (b : Bool) (m : Option Part) (t u : String) :
    grow b (grow b m t) u = grow b m (t ++ u) := by
  unfold grow
  by_cases ht : t = ""
  · rw [if_pos ht, ht, String.empty_append]
  · have htu : t ++ u ≠ "" := fun h => ht (String.append_eq_empty_iff.mp h).1
    rw [if_neg ht, if_neg htu]
    by_cases hu : u = ""
    · rw [if_pos hu, hu, String.append_empty]
    · rw [if_neg hu, Option.map_some, Option.getD_some, String.append_assoc]

/-- `s'` is `s` with the fragments appended. -/
structure Grown (b : Bool) (s s' : State) (ds : List Delta) (finishes : List String)
    (usages : List UsageOut) : Prop where
  message : s'.message = grow b s.message (joined (ds.map State.deltaText))
  calls : s'.calls =
    (callsOf ds).foldl (fun d x => push CallState.empty CallState.add d x.1 x.2) s.calls
  finish : s'.finish = finishes.getLast?.or s.finish
  usage : s'.usage = usages.getLast?.or s.usage

theorem Grown.refl (b : Bool) (s : State) : Grown b s s [] [] [] := ⟨rfl, rfl, rfl, rfl⟩

variable {b : Bool} {finishes finishes' : List String} {usages usages' : List UsageOut}

theorem Grown.trans {s s' s'' : State} {ds ds' : List Delta} (h : Grown b s s' ds finishes usages)
    (h' : Grown b s' s'' ds' finishes' usages') :
    Grown b s s'' (ds ++ ds') (finishes ++ finishes') (usages ++ usages') where
  message := by
    rw [h'.message, h.message, grow_grow, List.map_append, joined_append]
  calls := by
    rw [h'.calls, h.calls, callsOf, callsOf, callsOf, List.flatMap_append, List.map_append,
      List.foldl_append]
  finish := by rw [h'.finish, h.finish, List.getLast?_append, Option.or_assoc]
  usage := by rw [h'.usage, h.usage, List.getLast?_append, Option.or_assoc]

variable {ds : List Delta}

theorem Grown.ofKind {s s' : State} {finishes : List String} {usages : List UsageOut}
    (h : Grown b s s' ds finishes usages) (hs : s.OfKind b) : s'.OfKind b := by
  intro k hk
  rw [State.kind, h.message, grow] at hk
  split at hk
  · exact hs k hk
  · cases hk
    rfl

/-- The fragments are appended, if they can be read; or what is read from `None` raises. -/
structure Runs (b : Bool) (s : State) (res : Result) (readable : Prop) (ds : List Delta)
    (finishes : List String) (usages : List UsageOut) : Prop where
  grown : readable → ∃ s', res = (s', none) ∧ Grown b s s' ds finishes usages
  fails : ¬readable → ∃ f, res.2 = some f ∧ f.isTypeError

variable {s : State} {res : Result}

theorem Runs.andThen {p q : Prop} {ds ds' : List Delta} {next : State → Result}
    (h : Runs b s res p ds finishes usages) (hs : s.OfKind b)
    (hnext : ∀ s', s'.OfKind b → Runs b s' (next s') q ds' finishes' usages') :
    Runs b s (res.andThen next) (p ∧ q) (ds ++ ds') (finishes ++ finishes')
      (usages ++ usages') where
  grown hpq := by
    obtain ⟨s', rfl, hg⟩ := h.grown hpq.1
    obtain ⟨s'', he, hg'⟩ := (hnext s' (hg.ofKind hs)).grown hpq.2
    exact ⟨s'', he, hg.trans hg'⟩
  fails hpq := by
    by_cases hp : p
    · obtain ⟨s', rfl, hg⟩ := h.grown hp
      exact (hnext s' (hg.ofKind hs)).fails fun hq => hpq ⟨hp, hq⟩
    · obtain ⟨f, hf, ht⟩ := h.fails hp
      obtain ⟨s', raised⟩ := res
      cases hf
      exact ⟨f, rfl, ht⟩

theorem Runs.congr {p q : Prop} {finishes : List String} {usages : List UsageOut}
    (h : Runs b s res p ds finishes usages) (hpq : p ↔ q) : Runs b s res q ds finishes usages :=
  ⟨fun hq => h.grown (hpq.mpr hq), fun hq => h.fails fun hp => hq (hpq.mp hp)⟩

variable {d : Delta}

theorem say_grown (hs : s.OfKind b) (hd : d.OfKind b) :
    ∃ s', s.say d = (s', none) ∧ s'.message = grow b s.message (State.deltaText d) ∧
      s'.calls = s.calls ∧ s'.finish = s.finish ∧ s'.usage = s.usage := by
  unfold State.say grow
  by_cases ht : State.deltaText d = ""
  · rw [if_neg (not_not_intro ht), if_pos ht]
    exact ⟨s, rfl, rfl, rfl, rfl, rfl⟩
  · rw [if_pos ht, if_neg ht, State.text, hd ht]
    cases hm : s.message with
    | none => exact ⟨_, rfl, by rw [Option.map_none, Option.getD_none, String.empty_append], rfl, rfl, rfl⟩
    | some part =>
      have hk : part.refusal = b := hs _ (by rw [State.kind, hm]; rfl)
      dsimp only
      rw [if_neg (not_not_intro hk.symm)]
      exact ⟨_, rfl, rfl, rfl, rfl, rfl⟩

theorem callDeltas_eq (s : State) (ds : List CallDelta) :
    ds.foldl State.callDelta s =
      { s with
        calls := (ds.map fun d => (d.index.getD 0, d)).foldl
          (fun d x => push CallState.empty CallState.add d x.1 x.2) s.calls } := by
  induction ds generalizing s with
  | nil => rfl
  | cons d ds ih =>
    rw [List.foldl_cons, ih]
    rfl

theorem delta_runs (hs : s.OfKind b) (hd : d.OfKind b) :
    Runs b s (s.delta d) d.Readable [d] [] [] := by
  obtain ⟨s', he, hmessage, hcalls, hfinish, husage⟩ := say_grown hs hd
  unfold State.delta
  rw [he, Result.andThen]
  constructor
  · intro hr
    rw [Field.get_of_ne_null hr]
    refine ⟨_, rfl, ?_⟩
    rw [callDeltas_eq]
    refine ⟨?_, ?_, hfinish, husage⟩
    · simpa [joined] using hmessage
    · dsimp only
      rw [hcalls, callsOf, List.flatMap_singleton]
      rfl
  · intro hr
    rw [not_not.mp hr]
    exact ⟨_, rfl, rfl⟩

theorem Runs.after {s s' : State} {p : Prop} (h : Grown b s s' [] finishes usages)
    (hr : Runs b s' res p ds finishes' usages') :
    Runs b s res p ds (finishes ++ finishes') (usages ++ usages') where
  grown hp := by
    obtain ⟨s'', he, hg⟩ := hr.grown hp
    exact ⟨s'', he, h.trans hg⟩
  fails := hr.fails

theorem note_grown (b : Bool) (s : State) (finish : Option String) :
    Grown b s (s.note finish) [] (truthy finish).toList [] where
  message := rfl
  calls := rfl
  finish := by
    change (truthy finish).or s.finish = _
    cases truthy finish <;> rfl
  usage := rfl

theorem meter_grown (b : Bool) (s : State) (c : Chunk) :
    Grown b s (s.meter c.usage) [] [] c.usages where
  message := rfl
  calls := rfl
  finish := rfl
  usage := by
    change ((c.usage.get?.filter Usage.isTrue).map usage).or s.usage = _
    unfold Chunk.usages
    cases (c.usage.get?.filter Usage.isTrue).map usage <;> rfl

theorem choice_runs {c : StreamChoice} (hs : s.OfKind b) (hd : ∀ d ∈ c.deltas, d.OfKind b) :
    Runs b s (s.choice c) c.Readable c.deltas c.finishes [] := by
  unfold State.choice StreamChoice.Readable StreamChoice.finishes
  unfold StreamChoice.deltas at hd ⊢
  by_cases hi : c.index.getD 0 ≠ 0
  · rw [if_pos hi, if_pos hi, if_pos hi]
    exact ⟨fun _ => ⟨s, rfl, Grown.refl b s⟩, fun h => absurd (Or.inl hi) h⟩
  · rw [if_neg hi, if_neg hi, if_neg hi]
    rw [if_neg hi] at hd
    have hnote := note_grown b s c.finishReason
    by_cases hnull : c.delta = .null
    · rw [hnull]
      exact ⟨fun h => absurd rfl (h.resolve_left hi).1, fun _ => ⟨_, rfl, rfl⟩⟩
    · rw [Field.get_of_ne_null hnull]
      have hrun := Runs.after hnote (delta_runs (s := s.note c.finishReason) hs
        (hd _ (List.mem_singleton.mpr rfl)))
      rw [List.append_nil] at hrun
      exact hrun.congr ⟨fun h => Or.inr ⟨hnull, h⟩, fun h => (h.resolve_left hi).2⟩

theorem choices_runs {cs : List StreamChoice} (hs : s.OfKind b)
    (hd : ∀ d ∈ cs.flatMap StreamChoice.deltas, d.OfKind b) :
    Runs b s (s.choices cs) (∀ c ∈ cs, c.Readable) (cs.flatMap StreamChoice.deltas)
      (cs.flatMap StreamChoice.finishes) [] := by
  induction cs generalizing s with
  | nil =>
    exact ⟨fun _ => ⟨s, rfl, Grown.refl b s⟩, fun h => absurd (fun c hc => by cases hc) h⟩
  | cons c cs ih =>
    rw [List.flatMap_cons] at hd
    have hc := choice_runs (c := c) hs fun d hm => hd d (List.mem_append_left _ hm)
    have h := hc.andThen hs fun s' hs' => ih hs' fun d hm => hd d (List.mem_append_right _ hm)
    rw [List.flatMap_cons, List.flatMap_cons]
    exact h.congr List.forall_mem_cons.symm

theorem chunk_runs {c : Chunk} (he : c.error = none) (hs : s.OfKind b)
    (hd : ∀ d ∈ c.deltas, d.OfKind b) :
    Runs b s (s.chunk c) c.Readable c.deltas c.finishes c.usages := by
  unfold State.chunk
  rw [he]
  by_cases hnull : c.choices = .null
  · rw [hnull]
    exact ⟨fun h => absurd hnull h.1, fun _ => ⟨_, rfl, rfl⟩⟩
  · rw [Field.get_of_ne_null hnull]
    have hrun := Runs.after (meter_grown b s c) (choices_runs (s := s.meter c.usage) hs hd)
    rw [List.append_nil] at hrun
    exact hrun.congr ⟨fun h => ⟨hnull, h⟩, fun h => h.2⟩

theorem body_runs {data : List Datum} (hi : intact data) (hs : s.OfKind b)
    (hd : ∀ d ∈ deltasOf data, d.OfKind b) :
    Runs b s (s.body data) (∀ c ∈ live data, c.Readable) (deltasOf data) (finishesOf data)
      (usagesOf data) := by
  induction data generalizing s with
  | nil =>
    exact ⟨fun _ => ⟨s, rfl, Grown.refl b s⟩, fun h => absurd (fun c hc => by cases hc) h⟩
  | cons x data ih =>
    cases x with
    | done =>
      exact ⟨fun _ => ⟨s, rfl, Grown.refl b s⟩, fun h => absurd (fun c hc => by cases hc) h⟩
    | broken e => cases hi
    | chunk c =>
      obtain ⟨he, hi⟩ := (Bool.and_eq_true _ _).mp hi
      have hc := chunk_runs (Option.isNone_iff_eq_none.mp he) hs
        fun d hm => hd d (List.mem_append_left _ hm)
      have h := hc.andThen hs fun s' hs' => ih hi hs' fun d hm => hd d (List.mem_append_right _ hm)
      exact h.congr List.forall_mem_cons.symm

/-! ## The state after a completion -/

/-- The part that the stream has for a body; an empty text has none. -/
def Body.part : Body → Option Part
  | text t => grow false none t
  | refusal t => grow true none t
  | nothing => none

theorem ofKind_false (h : orEmpty d.refusal = "") :
    d.OfKind false ∧ State.deltaText d = orEmpty d.content := by
  unfold Delta.OfKind State.deltaRefusal State.deltaText
  rw [h]
  refine ⟨fun _ => rfl, ?_⟩
  split
  · rfl
  · next hc => exact (not_not.mp hc).symm

theorem ofKind_true (h : orEmpty d.content = "") :
    d.OfKind true ∧ State.deltaText d = orEmpty d.refusal := by
  unfold Delta.OfKind State.deltaRefusal State.deltaText
  rw [h, if_neg (not_not_intro rfl)]
  exact ⟨fun hne => decide_eq_true hne, rfl⟩

theorem Splits.kind {data : List Datum} {m : Completion} (h : Splits data m) :
    ∃ b, (∀ d ∈ deltasOf data, d.OfKind b) ∧
      grow b none (joined ((deltasOf data).map State.deltaText)) = m.body.part := by
  have hcontent := h.content
  have hrefusal := h.refusal
  have hfalse : m.body.refused = "" → ∀ d ∈ deltasOf data, orEmpty d.refusal = "" := fun he d hd =>
    joined_eq_empty (hrefusal.trans he) _ (List.mem_map_of_mem hd)
  have htrue : m.body.content.getD "" = "" → ∀ d ∈ deltasOf data, orEmpty d.content = "" :=
    fun he d hd => joined_eq_empty (hcontent.trans he) _ (List.mem_map_of_mem hd)
  cases hb : m.body with
  | text t | nothing =>
    rw [hb] at hfalse hcontent
    refine ⟨false, fun d hd => (ofKind_false (hfalse rfl d hd)).1, ?_⟩
    rw [List.map_congr_left fun d hd => (ofKind_false (hfalse rfl d hd)).2, hcontent]
    rfl
  | refusal t =>
    rw [hb] at htrue hrefusal
    refine ⟨true, fun d hd => (ofKind_true (htrue rfl d hd)).1, ?_⟩
    rw [List.map_congr_left fun d hd => (ofKind_true (htrue rfl d hd)).2, hrefusal]
    rfl

/-- The indexes of the calls, in the order in which they first appear. -/
def order (data : List Datum) : List ℤ := firstSeen ((callsOf (deltasOf data)).map Prod.fst)

theorem Splits.gathered {data : List Datum} {m : Completion} (h : Splits data m) :
    (gather CallState.empty CallState.add (callsOf (deltasOf data))).map Prod.snd =
      (order data).map m.call := by
  rw [gather_eq, List.map_map]
  refine List.map_congr_left fun i hi => ?_
  obtain ⟨hpos, hlt⟩ := (h.indexes i).mp (((firstSeen_spec _).2 i).mp hi)
  exact h.calls i hpos hlt

/-! ## The assembled calls -/

section

variable {customInput : String → Option String} {r : Request} {status : Status} {truncated : Bool}

theorem callItem_status {c : ToolCall} {custom : List String}
    (h : truncated → status = .incomplete) :
    callItem customInput c custom status truncated =
      (callItem customInput c custom .inProgress truncated).map
        fun i => { i with status := status } := by
  unfold callItem
  cases c.function.get Function.empty with
  | none => rfl
  | some function =>
    unfold itemOf
    dsimp only
    cases function.name.get "" with
    | none => rfl
    | some n =>
      dsimp only
      by_cases hn : n ∈ custom
      · rw [if_pos hn, if_pos hn]
        cases inputOf customInput (function.arguments.get "") with
        | some v => rfl
        | none =>
          cases truncated with
          | false => rfl
          | true =>
            rw [h rfl]
            rfl
      · rw [if_neg hn, if_neg hn]
        rfl

theorem restoreNamespace_status (item : CallItem) (status : Status) :
    restoreNamespace r { item with status := status } =
      { restoreNamespace r item with status := status } := by
  unfold restoreNamespace
  induction r.flat generalizing item with
  | nil => rfl
  | cons t flat ih =>
    rw [List.foldl_cons, List.foldl_cons]
    by_cases ht : some t.name = item.name ∧ t.space.isSome
    · rw [if_pos ht, if_pos ht]
      exact ih { item with name := some t.child, space := t.space }
    · rw [if_neg ht, if_neg ht]
      exact ih item

/-- The loop over the assembled calls makes the items of a complete message, but for the status
that they get afterwards. -/
theorem publish_eq {cs : List CallState} {output : List Item} {events : List Event}
    (h : truncated → status = .incomplete) :
    match callItems customInput r status truncated (cs.map CallState.toCall) with
    | .error f => ∃ out ev, publish customInput r truncated cs output events = ((out, ev), some f)
    | .ok items => ∃ out ev,
        publish customInput r truncated cs output events = ((output ++ out, ev), none) ∧
          out.map (Item.withStatus status) = items.map .call := by
  induction cs generalizing output events with
  | nil => exact ⟨[], events, by rw [List.append_nil]; rfl, rfl⟩
  | cons c cs ih =>
    rw [List.map_cons, callItems, publish, callItem_status h]
    cases callItem customInput c.toCall r.customNames .inProgress truncated with
    | error f => exact ⟨output, events, rfl⟩
    | ok item =>
      dsimp only [Except.map]
      have hrest := @ih (output ++ [.call (restoreNamespace r item)])
        (events ++ [.itemAdded output.length (.call { restoreNamespace r item with value := some "" }),
          .callDelta output.length (restoreNamespace r item).custom (restoreNamespace r item).value,
          .callDone output.length (restoreNamespace r item).custom (restoreNamespace r item).value])
      revert hrest
      cases callItems customInput r status truncated (cs.map CallState.toCall) with
      | error f => exact id
      | ok items =>
        rintro ⟨out, ev, he, hmap⟩
        refine ⟨.call (restoreNamespace r item) :: out, ev, ?_, ?_⟩
        · rw [List.append_assoc, List.singleton_append] at he
          exact he
        · rw [List.map_cons, List.map_cons, hmap, @restoreNamespace_status r item status]
          rfl

theorem finalStatus_length {finish : String} (h : (finish == "length")) :
    finalStatus finish = .incomplete :=
  if_pos (Or.inl (eq_of_beq h))

/-! ## The two responses -/

/-- The response of a completion with these items for its body, its calls, and this usage. -/
def finished (r : Request) (finish : String) (items : List Item) (calls : List CallItem)
    (u : Option UsageOut) : Response :=
  { response r with
    status := finalStatus finish
    output := items ++ calls.map .call
    usage := u
    incompleteDetails := incompleteDetails finish }

/-- A failed response with the text of `f`. -/
def Response.FailedWith (resp : Response) (f : Failure) : Prop :=
  resp.status = .failed ∧ resp.error = some (.upstreamError f.message)

/-- The items of calls, as a completion with this finish reason has them. -/
def itemsOf (customInput : String → Option String) (r : Request) (m : Completion)
    (calls : List CallState) : Except Failure (List CallItem) :=
  callItems customInput r (finalStatus m.finish) (m.finish == "length")
    (calls.map CallState.toCall)

def Readable (data : List Datum) : Prop := ∀ c ∈ live data, c.Readable

/-- The last response of a stream whose calls are assembled as `assembled`. -/
def Ends (r : Request) (m : Completion) (u : Option UsageOut) (resp : Response)
    (assembled : Except Failure (List CallItem)) : Prop :=
  match assembled with
  | .error f => resp.FailedWith f
  | .ok items =>
    resp = finished r m.finish (m.body.part.toList.map fun p => .message (finalStatus m.finish) [p])
      items u

theorem translate_unreadable {data : List Datum} {m : Completion} (h : Splits data m)
    (hr : ¬Readable data) :
    ∃ f, f.isTypeError ∧ (translate customInput r data).2.FailedWith f := by
  obtain ⟨b, hkind, _⟩ := h.kind
  have hruns := body_runs h.intact (s := State.init r) (fun k hk => by cases hk) hkind
  obtain ⟨f, hf, ht⟩ := hruns.fails hr
  refine ⟨f, ht, ?_⟩
  unfold translate
  rcases hb : (State.init r).body data with ⟨s, raised⟩
  rw [hb] at hf
  cases hf
  exact ⟨rfl, rfl⟩

theorem translate_splits {data : List Datum} {m : Completion} (h : Splits data m)
    (hr : Readable data) :
    Ends r m (usagesOf data).getLast? (translate customInput r data).2
      (itemsOf customInput r m ((order data).map m.call)) := by
  obtain ⟨b, hkind, hpart⟩ := h.kind
  have hruns := body_runs h.intact (s := State.init r) (fun k hk => by cases hk) hkind
  obtain ⟨s, hs, hg⟩ := hruns.grown hr
  have hmessage : s.message = m.body.part := hg.message.trans hpart
  have hcalls : s.calls.map Prod.snd = (order data).map m.call := by
    rw [hg.calls]
    exact h.gathered
  have hfinish : s.finish = some m.finish := by rw [hg.finish, h.finish]; rfl
  have husage : s.usage = (usagesOf data).getLast? := by
    rw [hg.usage]
    exact Option.or_none
  have hpub := @publish_eq customInput r (finalStatus m.finish) (m.finish == "length")
    ((order data).map m.call) s.output s.events finalStatus_length
  unfold translate
  rw [hs]
  dsimp only
  unfold conclude
  rw [hfinish, hcalls]
  dsimp only
  unfold itemsOf
  revert hpub
  cases callItems customInput r (finalStatus m.finish) (m.finish == "length")
    (((order data).map m.call).map CallState.toCall) with
  | error f =>
    rintro ⟨out, ev, he⟩
    rw [he]
    exact ⟨rfl, rfl⟩
  | ok items =>
    rintro ⟨out, ev, he, hmap⟩
    rw [he]
    dsimp only
    rw [List.map_append, hmap, husage, State.output, hmessage, List.map_map]
    rfl

/-- The items of a body in a complete message; an empty text has one too. -/
def Body.items (status : Status) : Body → List Item
  | text t => [.message status [⟨false, t⟩]]
  | refusal t => if t = "" then [] else [.message status [⟨true, t⟩]]
  | nothing => []

theorem truthy_get? (f : Field String) :
    truthy f.get? = if orEmpty f = "" then none else some (orEmpty f) := by
  cases f with
  | absent => rfl
  | null => rfl
  | value t =>
    unfold truthy orEmpty Field.get?
    by_cases ht : t = "" <;> simp [ht]

theorem callItem_strings {c : ToolCall} {custom : List String} (hf : c.function ≠ .null)
    (hw : c.written) :
    callItem customInput c.strings.toCall custom status truncated =
      callItem customInput c custom status truncated := by
  obtain ⟨id, function⟩ := c
  have hid : truthy (some (orEmpty id)) = truthy id.get? := by cases id <;> rfl
  rw [callItem_eq hf, callItem_eq (by simp [CallState.toCall])]
  obtain ⟨hn, ha⟩ := (Bool.and_eq_true _ _).mp hw
  have hname : some (orEmpty (function.get?.getD Function.empty).name) =
      (ToolCall.mk id function).nameOf := by
    unfold ToolCall.nameOf at hn ⊢
    dsimp only at hn ⊢
    revert hn
    cases (function.get?.getD Function.empty).name <;> intro hn <;> first | rfl | cases hn
  have harguments : some (orEmpty (function.get?.getD Function.empty).arguments) =
      (ToolCall.mk id function).argumentsOf := by
    unfold ToolCall.argumentsOf at ha ⊢
    dsimp only at ha ⊢
    revert ha
    cases (function.get?.getD Function.empty).arguments <;> intro ha <;> first | rfl | cases ha
  rw [← hname, ← harguments, ← hid]
  rfl

theorem callItems_strings {cs : List ToolCall}
    (h : ∀ c ∈ cs, c.function ≠ .null ∧ c.written = true) :
    callItems customInput r status truncated (cs.map fun c => c.strings.toCall) =
      callItems customInput r status truncated cs := by
  induction cs with
  | nil => rfl
  | cons c cs ih =>
    obtain ⟨hf, hw⟩ := h c (List.mem_cons_self ..)
    rw [List.map_cons, callItems, callItems, callItem_strings hf hw,
      ih fun d hd => h d (List.mem_cons_of_mem _ hd)]

theorem fromChatResponse_carries {p : Payload} {m : Completion} (h : Carries p m) :
    fromChatResponse customInput r p =
      match itemsOf customInput r m m.calls with
      | .error f => .error (if f.isTypeError then .malformed else f)
      | .ok items =>
        .ok (finished r m.finish (m.body.items (finalStatus m.finish)) items
          (m.usage.map usage)) := by
  obtain ⟨choice, rest, hchoices, hfinish, message, hmessage, hcontent, hrefusal, calls, hcalls,
    hstrings, hgood⟩ := h.choice
  have hitems : callItems customInput r (finalStatus m.finish) (m.finish == "length") calls =
      itemsOf customInput r m m.calls := by
    rw [itemsOf, ← hstrings, List.map_map, ← callItems_strings hgood]
    rfl
  have hbody : (m.body.content.toList.map fun t => Item.message (finalStatus m.finish) [⟨false, t⟩]) ++
      ((truthy message.refusal.get?).toList.map
        fun t => Item.message (finalStatus m.finish) [⟨true, t⟩]) =
      m.body.items (finalStatus m.finish) := by
    rw [truthy_get?, hrefusal]
    cases m.body with
    | text t => rfl
    | nothing => rfl
    | refusal t =>
      by_cases ht : t = "" <;> simp [Body.content, Body.refused, Body.items, ht]
  rw [fromChatResponse, fromChatResponse', h.error]
  rw [hchoices]
  dsimp only
  rw [fromChoice, hfinish]
  rw [hmessage]
  dsimp only
  rw [fromMessage, hcalls]
  dsimp only
  rw [hitems, hcontent, h.usage, hbody]
  cases itemsOf customInput r m m.calls <;> rfl

theorem itemsOf_failure {m : Completion} {calls : List CallState} {f : Failure}
    (hf : itemsOf customInput r m calls = .error f) : ∃ n, f = .invalidArguments n := by
  have h : callItems customInput r (finalStatus m.finish) (m.finish == "length")
      ((calls.map CallState.toCall).map ToolCall.omitted) = .error f := by
    rw [List.map_map]
    exact hf
  exact callItems_omitted_failure h

theorem invalidArguments_inj {n n' : String}
    (h : (Failure.invalidArguments n).message = (Failure.invalidArguments n').message) : n = n' :=
  (String.append_right_inj "Invalid arguments from custom tool ").mp h

theorem finalStatus_ne_failed (finish : String) : finalStatus finish ≠ .failed := by
  unfold finalStatus
  split <;> nofun

/-- The stream has the items of the message, unless its text is there and empty. -/
theorem part_items {b : Body} (h : b ≠ .text "") (status : Status) :
    (b.part.toList.map fun p => Item.message status [p]) = b.items status := by
  cases b with
  | text t =>
    have ht : t ≠ "" := fun he => h (congrArg Body.text he)
    simp [Body.part, grow, Body.items, ht]
  | refusal t => by_cases ht : t = "" <;> simp [Body.part, grow, Body.items, ht]
  | nothing => rfl

theorem finished_eq_iff {finish : String} {b : Body} {l l' : List CallItem}
    {u u' : Option UsageOut} :
    finished r finish (b.part.toList.map fun p => .message (finalStatus finish) [p]) l u =
        finished r finish (b.items (finalStatus finish)) l' u' ↔
      l = l' ∧ b ≠ .text "" ∧ u = u' := by
  have hinj : Function.Injective (List.map Item.call) :=
    List.map_injective_iff.mpr fun _ _ h => Item.call.inj h
  constructor
  · intro h
    have hu : u = u' := congrArg Response.usage h
    have hout : (b.part.toList.map fun p => Item.message (finalStatus finish) [p]) ++ l.map .call =
        b.items (finalStatus finish) ++ l'.map .call := congrArg Response.output h
    have hb : b ≠ .text "" := by
      rintro rfl
      cases l with
      | nil => cases hout
      | cons i l => cases hout
    rw [part_items hb] at hout
    exact ⟨hinj (List.append_cancel_left hout), hb, hu⟩
  · rintro ⟨rfl, hb, rfl⟩
    rw [part_items hb]

/-- A stream in fragments has the response of the complete message exactly when no `null` stands for
a list or an object, its calls come in the order of the message, or in one that makes no difference,
and, where no call is refused, the text is not present and empty, and the usage is not an object
without keys. -/
theorem translations_agree_iff {dec : Decoder} {loads : List Char → Datum} {upstream : List Piece}
    {p : Payload} {m : Completion} (hs : Splits (readStream dec loads upstream) m)
    (hp : Carries p m) :
    Agrees customInput r (streamChatResponse customInput dec loads r upstream) p ↔
      Readable (readStream dec loads upstream) ∧
        itemsOf customInput r m ((order (readStream dec loads upstream)).map m.call) =
          itemsOf customInput r m m.calls ∧
        ∀ items, itemsOf customInput r m m.calls = .ok items →
          m.body ≠ .text "" ∧
            (usagesOf (readStream dec loads upstream)).getLast? = m.usage.map usage := by
  have hlast : (streamChatResponse customInput dec loads r upstream).getLast? =
      some (.terminal (translate customInput r (readStream dec loads upstream)).2) := by
    unfold streamChatResponse
    rw [List.getLast?_append]
    rfl
  have hagrees : Agrees customInput r (streamChatResponse customInput dec loads r upstream) p ↔
      match fromChatResponse customInput r p with
      | .ok resp => (translate customInput r (readStream dec loads upstream)).2 = resp
      | .error f => (translate customInput r (readStream dec loads upstream)).2.FailedWith f := by
    unfold Agrees
    rw [hlast]
    constructor
    · rintro ⟨last, he, h⟩
      cases he
      exact h
    · exact fun h => ⟨_, rfl, h⟩
  rw [hagrees, fromChatResponse_carries hp]
  generalize hl : (translate customInput r (readStream dec loads upstream)).2 = last
  by_cases hr : Readable (readStream dec loads upstream)
  · have hstream := @translate_splits customInput r _ m hs hr
    rw [hl] at hstream
    rw [and_iff_right hr]
    rcases ho : itemsOf customInput r m ((order (readStream dec loads upstream)).map m.call)
      with f | items
    · obtain ⟨n, rfl⟩ := itemsOf_failure ho
      rw [ho] at hstream
      have hfailed : last.FailedWith (.invalidArguments n) := hstream
      rcases hm : itemsOf customInput r m m.calls with g | items'
      · obtain ⟨n', rfl⟩ := itemsOf_failure hm
        constructor
        · intro hf
          have he := hfailed.2.symm.trans hf.2
          rw [invalidArguments_inj (ResponseError.upstreamError.inj (Option.some.inj he))]
          exact ⟨rfl, nofun⟩
        · rintro ⟨he, _⟩
          cases he
          exact hfailed
      · constructor
        · intro he
          rw [he] at hfailed
          exact absurd hfailed.1 (finalStatus_ne_failed _)
        · rintro ⟨he, _⟩
          cases he
    · rw [ho] at hstream
      have hdone : last = _ := hstream
      rcases hm : itemsOf customInput r m m.calls with g | items'
      · obtain ⟨n', rfl⟩ := itemsOf_failure hm
        constructor
        · intro hf
          rw [hdone] at hf
          exact absurd hf.1 (finalStatus_ne_failed _)
        · rintro ⟨he, _⟩
          cases he
      · dsimp only
        rw [hdone, finished_eq_iff]
        constructor
        · rintro ⟨rfl, hb, hu⟩
          exact ⟨rfl, fun _ _ => ⟨hb, hu⟩⟩
        · rintro ⟨he, h⟩
          obtain ⟨hb, hu⟩ := h items' rfl
          exact ⟨Except.ok.inj he, hb, hu⟩
  · obtain ⟨f, ht, hf⟩ := @translate_unreadable customInput r _ m hs hr
    rw [hl] at hf
    constructor
    · intro h
      rcases hm : itemsOf customInput r m m.calls with g | items'
      · obtain ⟨n', rfl⟩ := itemsOf_failure hm
        rw [hm] at h
        have he := hf.2.symm.trans h.2
        exact absurd (ResponseError.upstreamError.inj (Option.some.inj he)) (message_ne ht rfl)
      · rw [hm] at h
        rw [show last = _ from h] at hf
        exact absurd hf.1 (finalStatus_ne_failed _)
    · exact fun h => absurd h.1 hr

end

/-! ## A message whose text is empty -/

/-- Every stream in fragments has the response of the complete message. -/
def TranslationsAgree : Prop :=
  ∀ (customInput : String → Option String) (r : Request) (dec : Decoder) (loads : List Char → Datum)
    (upstream : List Piece) (p : Payload) (m : Completion),
    Splits (readStream dec loads upstream) m → Carries p m →
      Agrees customInput r (streamChatResponse customInput dec loads r upstream) p

def emptyCompletion : Completion := ⟨.text "", [], "stop", none⟩

def emptyMessage : Payload :=
  ⟨none, .value [⟨some "stop", .value ⟨.value "", .absent, .absent⟩⟩], .absent⟩

/-- What `json.loads` reads from the one text of `emptyStream`. -/
def loadsEmpty (_ : List Char) : Datum :=
  .chunk ⟨none, .absent, .value [⟨none, some "stop", .value ⟨.value "", .absent, .absent⟩⟩]⟩

def emptyStream : List Piece :=
  [.text ("data: \x7b\"choices\":[\x7b\"finish_reason\":\"stop\"," ++
    "\"delta\":\x7b\"content\":\"\"\x7d\x7d]\x7d\n\n").toList]

theorem emptyStream_data : readStream textOnly loadsEmpty emptyStream = [loadsEmpty []] := rfl

theorem emptyStream_splits :
    Splits (readStream textOnly loadsEmpty emptyStream) emptyCompletion := by
  rw [emptyStream_data]
  constructor
  case intact => rfl
  case content => decide
  case refusal => decide
  case indexes =>
    exact fun i => iff_of_false List.not_mem_nil fun h => absurd h.2 (Int.not_lt.mpr h.1)
  case calls => exact fun i h h' => absurd h' (Int.not_lt.mpr h)
  case finish => rfl
  case usage => rfl

theorem emptyMessage_carries : Carries emptyMessage emptyCompletion :=
  ⟨rfl, rfl, _, [], rfl, rfl, _, rfl, rfl, rfl, [], rfl, rfl, nofun⟩

theorem empty_text_differs : ¬TranslationsAgree := by
  intro h
  obtain ⟨last, hlast, he⟩ := h (fun _ => none) plainRequest textOnly loadsEmpty emptyStream
    emptyMessage emptyCompletion emptyStream_splits emptyMessage_carries
  have hout : last.output = [] := by
    cases hlast
    rfl
  rw [show last = _ from he] at hout
  cases hout

theorem translations_agree_iff_empty :
    ¬Agrees (fun _ => none) plainRequest
      (streamChatResponse (fun _ => none) textOnly loadsEmpty plainRequest emptyStream)
      emptyMessage := fun h =>
  ((translations_agree_iff emptyStream_splits emptyMessage_carries).mp h).2.2 [] rfl |>.1 rfl

end SparkDeck.Responses
