import SparkDeck.Responses.Stream

/-!
# Null fields and absent fields

When a stream or a payload in which absent fields are written as `null` is translated like the one
without them.

* `scanDatas` walks over a stream as the loop does, up to its end marker, an error, an undecodable
  payload or a mix of text and refusal, and looks for the three fields that the loop iterates over or
  looks into as they come: `choices`, `delta` and `tool_calls`. `body_scan` is the step and the run
  of it: where it finds none, the loop does the same for both streams; where it finds one, the loop
  raises what it never raises once the nulls are left out (`body_omitted`).
* `Payload.Kept` is the condition on a complete response.
* `nulls_ignored_iff` puts the two together.
-/

namespace SparkDeck.Responses

open Gather

/-! ## Texts of failures -/

theorem message_of_typeError {f : Failure} (hf : f.isTypeError) :
    ∃ rest, f.message = "'NoneType'" ++ rest := by
  cases f with
  | notIterable => exact ⟨" object is not iterable", rfl⟩
  | noAttribute => exact ⟨" object has no attribute 'get'", rfl⟩
  | _ => cases hf

/-- The texts that are not a decoder's start with no quotation mark. -/
theorem message_start {f : Failure} (hf : f.isTypeError = false) (hd : ∀ e, f ≠ .decode e) :
    ∃ start rest, f.message = start ++ rest ∧ ∃ c, start.toList.head? = some c ∧ c ≠ '\'' := by
  cases f with
  | decode e => exact absurd rfl (hd e)
  | upstream e => exact ⟨"\x7b", e.fields, rfl, _, rfl, by decide⟩
  | invalidArguments name =>
    exact ⟨"Invalid arguments from custom tool ", name, rfl, 'I', rfl, by decide⟩
  | mixed | noFinish | noChoices | noFinishReason =>
    exact ⟨_, "", String.append_empty.symm, 'U', rfl, by decide⟩
  | malformed => exact ⟨_, "", String.append_empty.symm, 'M', rfl, by decide⟩
  | notIterable => cases hf
  | noAttribute => cases hf

theorem message_ne {f g : Failure} (hf : f.isTypeError = true) (hg : g.isTypeError = false) :
    f.message ≠ g.message := by
  obtain ⟨rest, hrest⟩ := message_of_typeError hf
  by_cases hd : ∃ e, g = .decode e
  · obtain ⟨e, rfl⟩ := hd
    exact fun h => e.other rest (h.symm.trans hrest)
  · obtain ⟨start, rest', hstart, c, hc, hne⟩ := message_start hg fun e he => hd ⟨e, he⟩
    intro h
    have hhead := congrArg (fun s => s.toList.head?) (hrest.symm.trans (h.trans hstart))
    simp only [String.toList_append, List.head?_append, hc] at hhead
    exact hne (Option.some.inj hhead).symm

/-! ## What the loop does with a stream and with the stream without nulls -/

@[simp] theorem deltaText_omitted (d : Delta) :
    State.deltaText d.omitted = State.deltaText d := by
  simp only [State.deltaText, Delta.omitted, orEmpty_omitted]

@[simp] theorem deltaRefusal_omitted (d : Delta) :
    State.deltaRefusal d.omitted = State.deltaRefusal d := by
  simp only [State.deltaRefusal, Delta.omitted, orEmpty_omitted]

theorem add_omitted (s : CallState) (d : CallDelta) : s.add d.omitted = s.add d := by
  obtain ⟨⟨id, function⟩, index⟩ := d
  unfold CallState.add CallDelta.omitted ToolCall.omitted
  rw [orEmpty_omitted]
  cases function with
  | absent => rfl
  | null => rfl
  | value f =>
    obtain ⟨name, arguments⟩ := f
    cases name <;> cases arguments <;> rfl

theorem callDeltas_omitted (s : State) (ds : List CallDelta) :
    (ds.map CallDelta.omitted).foldl State.callDelta s = ds.foldl State.callDelta s := by
  induction ds generalizing s with
  | nil => rfl
  | cons d ds ih =>
    have hd : s.callDelta d.omitted = s.callDelta d := by
      unfold State.callDelta
      rw [push_congr fun a => add_omitted a d]
      rfl
    rw [List.map_cons, List.foldl_cons, List.foldl_cons, hd]
    exact ih _

/-- What the loop meets: nothing, with the kind of the message by then (`true` for a refusal); an
error that it raises for both streams; or a `null` that it cannot read. -/
inductive Scan where
  | clear (kind : Option Bool)
  | stopped
  | spoiled
  deriving DecidableEq

/-- What follows, where nothing was met. -/
def Scan.andThen (scan : Scan) (next : Option Bool → Scan) : Scan :=
  match scan with
  | clear kind => next kind
  | other => other

def scanDelta (kind : Option Bool) (d : Delta) : Scan :=
  let said := State.deltaText d ≠ ""
  if said ∧ kind ≠ none ∧ kind ≠ some (State.deltaRefusal d) then .stopped
  else if d.toolCalls = .null then .spoiled
  else .clear (if said then some (State.deltaRefusal d) else kind)

def scanChoice (kind : Option Bool) (c : StreamChoice) : Scan :=
  if c.index.getD 0 ≠ 0 then .clear kind
  else
    match c.delta.get Delta.empty with
    | none => .spoiled
    | some d => scanDelta kind d

def scanChoices (kind : Option Bool) : List StreamChoice → Scan
  | [] => .clear kind
  | c :: cs => (scanChoice kind c).andThen fun kind => scanChoices kind cs

def scanChunk (kind : Option Bool) (c : Chunk) : Scan :=
  if c.error.isSome then .stopped
  else
    match c.choices.get [] with
    | none => .spoiled
    | some cs => scanChoices kind cs

def scanDatas (kind : Option Bool) : List Datum → Scan
  | [] => .clear kind
  | .done :: _ => .clear kind
  | .broken _ :: _ => .stopped
  | .chunk c :: rest => (scanChunk kind c).andThen fun kind => scanDatas kind rest

/-- Whether the message so far is a refusal. -/
def State.kind (s : State) : Option Bool := s.message.map (·.refusal)

/-- The two results that a scan announces: `res` of the stream, `clean` without its nulls. -/
def Scan.Tells (scan : Scan) (res clean : Result) : Prop :=
  match scan with
  | .clear kind => clean = res ∧ res.2 = none ∧ res.1.kind = kind
  | .stopped => clean = res ∧ ∃ f, res.2 = some f ∧ f.isTypeError = false
  | .spoiled => ∃ f, res.2 = some f ∧ f.isTypeError

variable {more : Option Bool → Scan}

theorem Scan.Tells.andThen {scan : Scan} {res clean : Result} {next next' : State → Result}
    (h : scan.Tells res clean) (hnext : ∀ s, (more s.kind).Tells (next s) (next' s)) :
    (scan.andThen more).Tells (res.andThen next) (clean.andThen next') := by
  obtain ⟨s, raised⟩ := res
  cases scan with
  | clear kind =>
    obtain ⟨rfl, hnone, rfl⟩ := h
    cases hnone
    exact hnext s
  | stopped =>
    obtain ⟨rfl, f, hf, ht⟩ := h
    cases hf
    exact ⟨rfl, f, rfl, ht⟩
  | spoiled =>
    obtain ⟨f, hf, ht⟩ := h
    cases hf
    exact ⟨f, rfl, ht⟩

@[simp] theorem kind_callDeltas (s : State) (ds : List CallDelta) :
    (ds.foldl State.callDelta s).kind = s.kind := by
  induction ds generalizing s with
  | nil => rfl
  | cons d ds ih => exact ih _

theorem say_mixed {s : State} {d : Delta} (h : State.deltaText d ≠ "" ∧ s.kind ≠ none ∧
    s.kind ≠ some (State.deltaRefusal d)) : s.say d = (s, some .mixed) := by
  obtain ⟨ht, hnone, hk⟩ := h
  rw [State.say, if_pos ht, State.text]
  cases hm : s.message with
  | none => exact absurd (by simp [State.kind, hm]) hnone
  | some part =>
    have hne : State.deltaRefusal d ≠ part.refusal := fun he =>
      hk (by simp [State.kind, hm, he])
    dsimp only
    rw [if_pos hne]

theorem say_kept {s : State} {d : Delta} (h : ¬(State.deltaText d ≠ "" ∧ s.kind ≠ none ∧
    s.kind ≠ some (State.deltaRefusal d))) :
    ∃ s', s.say d = (s', none) ∧
      s'.kind = if State.deltaText d ≠ "" then some (State.deltaRefusal d) else s.kind := by
  unfold State.say
  by_cases ht : State.deltaText d ≠ ""
  · rw [if_pos ht, if_pos ht, State.text]
    cases hm : s.message with
    | none => exact ⟨_, rfl, rfl⟩
    | some part =>
      have he : State.deltaRefusal d = part.refusal := by
        by_contra hne
        refine h ⟨ht, by simp [State.kind, hm], fun hk => hne ?_⟩
        simpa [State.kind, hm] using hk.symm
      dsimp only
      rw [if_neg (not_not_intro he)]
      exact ⟨_, rfl, rfl⟩
  · rw [if_neg ht, if_neg ht]
    exact ⟨s, rfl, rfl⟩

theorem say_omitted (s : State) (d : Delta) : s.say d.omitted = s.say d := by
  rw [State.say, deltaText_omitted, deltaRefusal_omitted, State.say]

theorem delta_scan (s : State) (d : Delta) :
    (scanDelta s.kind d).Tells (s.delta d) (s.delta d.omitted) := by
  unfold scanDelta State.delta Result.andThen
  rw [say_omitted]
  by_cases hmix : State.deltaText d ≠ "" ∧ s.kind ≠ none ∧ s.kind ≠ some (State.deltaRefusal d)
  · rw [say_mixed hmix]
    simp only [hmix, ne_eq, not_false_eq_true, and_self, if_true]
    exact ⟨rfl, _, rfl, rfl⟩
  · obtain ⟨s', hs', hk⟩ := say_kept hmix
    rw [hs']
    rw [if_neg hmix]
    by_cases hnull : d.toolCalls = .null
    · rw [if_pos hnull, hnull]
      exact ⟨_, rfl, rfl⟩
    · rw [if_neg hnull, Field.get_of_ne_null hnull]
      have hclean : d.omitted.toolCalls.get [] =
          some ((d.toolCalls.get?.map (List.map CallDelta.omitted)).getD []) :=
        Field.get_omitted _ _ _
      rw [hclean]
      have hfold : ((d.toolCalls.get?.map (List.map CallDelta.omitted)).getD []).foldl
          State.callDelta s' = (d.toolCalls.get?.getD []).foldl State.callDelta s' := by
        cases d.toolCalls.get? with
        | none => rfl
        | some ds => exact callDeltas_omitted s' ds
      refine ⟨?_, rfl, ?_⟩
      · dsimp only
        rw [hfold]
      · exact (kind_callDeltas s' _).trans hk

theorem choice_scan (s : State) (c : StreamChoice) :
    (scanChoice s.kind c).Tells (s.choice c) (s.choice c.omitted) := by
  obtain ⟨index, finish, delta⟩ := c
  unfold scanChoice State.choice StreamChoice.omitted
  by_cases hi : index.getD 0 ≠ 0
  · rw [if_pos hi, if_pos hi, if_pos hi]
    exact ⟨rfl, rfl, rfl⟩
  · rw [if_neg hi, if_neg hi, if_neg hi]
    cases delta with
    | null => exact ⟨_, rfl, rfl⟩
    | absent => exact delta_scan (s.note finish) Delta.empty
    | value d => exact delta_scan (s.note finish) d

theorem choices_scan (s : State) (cs : List StreamChoice) :
    (scanChoices s.kind cs).Tells (s.choices cs) (s.choices (cs.map StreamChoice.omitted)) := by
  induction cs generalizing s with
  | nil => exact ⟨rfl, rfl, rfl⟩
  | cons c cs ih => exact (choice_scan s c).andThen ih

theorem chunk_scan (s : State) (c : Chunk) :
    (scanChunk s.kind c).Tells (s.chunk c) (s.chunk c.omitted) := by
  obtain ⟨error, usage, choices⟩ := c
  have hm : s.meter (usage.omitted fun u => u) = s.meter usage := by
    cases usage <;> rfl
  unfold scanChunk State.chunk Chunk.omitted
  rw [hm]
  cases error with
  | some e => exact ⟨rfl, _, rfl, rfl⟩
  | none =>
    cases choices with
    | null => exact ⟨_, rfl, rfl⟩
    | absent => exact choices_scan (s.meter usage) []
    | value cs => exact choices_scan (s.meter usage) cs

theorem body_scan (s : State) (data : List Datum) :
    (scanDatas s.kind data).Tells (s.body data) (s.body (data.map Datum.omitted)) := by
  induction data generalizing s with
  | nil => exact ⟨rfl, rfl, rfl⟩
  | cons x data ih =>
    cases x with
    | done => exact ⟨rfl, rfl, rfl⟩
    | broken e => exact ⟨rfl, _, rfl, rfl⟩
    | chunk c => exact (chunk_scan s c).andThen ih

/-! ## Without nulls -/

theorem Scan.andThen_ne {scan : Scan} (h : scan ≠ .spoiled) (hmore : ∀ kind, more kind ≠ .spoiled) :
    scan.andThen more ≠ .spoiled := by
  cases scan with
  | clear kind => exact hmore kind
  | stopped => exact h
  | spoiled => exact h

theorem scanDelta_ne {kind : Option Bool} {d : Delta} (h : d.toolCalls ≠ .null) :
    scanDelta kind d ≠ .spoiled := by
  unfold scanDelta
  dsimp only
  split
  · exact Scan.noConfusion
  · exact Scan.noConfusion

theorem omitted_ne_null {α β : Type} (f : α → β) (x : Field α) : x.omitted f ≠ .null := by
  cases x <;> nofun

theorem scanChoices_omitted (kind : Option Bool) (cs : List StreamChoice) :
    scanChoices kind (cs.map StreamChoice.omitted) ≠ .spoiled := by
  induction cs generalizing kind with
  | nil => exact Scan.noConfusion
  | cons c cs ih =>
    refine Scan.andThen_ne ?_ ih
    unfold scanChoice StreamChoice.omitted
    rw [Field.get_omitted]
    split
    · exact Scan.noConfusion
    · cases hd : c.delta.get? with
      | none => exact scanDelta_ne nofun
      | some d => exact scanDelta_ne (omitted_ne_null _ d.toolCalls)

theorem scanDatas_omitted (kind : Option Bool) (data : List Datum) :
    scanDatas kind (data.map Datum.omitted) ≠ .spoiled := by
  induction data generalizing kind with
  | nil => exact Scan.noConfusion
  | cons x data ih =>
    cases x with
    | done | broken e => exact Scan.noConfusion
    | chunk c =>
      refine Scan.andThen_ne ?_ ih
      unfold scanChunk Chunk.omitted
      rw [Field.get_omitted]
      split
      · exact Scan.noConfusion
      · cases c.choices.get? with
        | none => exact Scan.noConfusion
        | some cs => exact scanChoices_omitted kind cs

/-- Without nulls, nothing is read from `None`. -/
theorem body_omitted (s : State) (data : List Datum) {f : Failure}
    (hf : (s.body (data.map Datum.omitted)).2 = some f) : f.isTypeError = false := by
  have h := body_scan s (data.map Datum.omitted)
  cases hs : scanDatas s.kind (data.map Datum.omitted) with
  | clear kind =>
    rw [hs] at h
    rw [h.2.1] at hf
    cases hf
  | stopped =>
    rw [hs] at h
    obtain ⟨_, g, hg, ht⟩ := h
    rw [hg] at hf
    exact Option.some.inj hf ▸ ht
  | spoiled => exact absurd hs (scanDatas_omitted s.kind data)

section

variable {customInput : String → Option String} {r : Request} {custom : List String}

theorem itemOf_failure {status : Status} {truncated : Bool} {callId name arguments : Option String}
    {f : Failure}
    (hf : itemOf customInput custom status truncated callId name arguments = .error f) :
    ∃ n, f = .invalidArguments n := by
  unfold itemOf at hf
  split at hf
  · cases hf
  · split at hf
    · split at hf
      · cases hf
      · split at hf
        · cases hf
        · cases hf
          exact ⟨_, rfl⟩
    · cases hf

theorem callItem_failure {c : ToolCall} {status : Status} {truncated : Bool} {f : Failure}
    (hfun : c.function ≠ .null) (hf : callItem customInput c custom status truncated = .error f) :
    ∃ n, f = .invalidArguments n := by
  rw [callItem, Field.get_of_ne_null hfun] at hf
  exact itemOf_failure hf

theorem publish_failure {truncated : Bool} {cs : List CallState} {output : List Item}
    {events : List Event} {f : Failure}
    (hf : (publish customInput r truncated cs output events).2 = some f) :
    f.isTypeError = false := by
  induction cs generalizing output events with
  | nil => cases hf
  | cons c cs ih =>
    rw [publish] at hf
    cases hc : callItem customInput c.toCall r.customNames .inProgress truncated with
    | error g =>
      rw [hc] at hf
      cases hf
      obtain ⟨n, rfl⟩ := callItem_failure (by simp [CallState.toCall]) hc
      rfl
    | ok item =>
      rw [hc] at hf
      exact ih hf

variable {data : List Datum}

/-- The error of the last response, where the loop read nothing from `None`. -/
theorem translate_error (h : ∀ f, ((State.init r).body data).2 = some f → f.isTypeError = false) :
    ∀ e, (translate customInput r data).2.error = some e →
      ∃ f : Failure, f.isTypeError = false ∧ e = .upstreamError f.message := by
  intro e he
  unfold translate at he
  rcases hb : (State.init r).body data with ⟨s, raised⟩
  rw [hb] at h he
  cases raised with
  | some f =>
    cases he
    exact ⟨f, h f rfl, rfl⟩
  | none =>
    dsimp only at he
    unfold conclude at he
    cases hfin : s.finish with
    | none =>
      rw [hfin] at he
      cases he
      exact ⟨.noFinish, rfl, rfl⟩
    | some finish =>
      rw [hfin] at he
      dsimp only at he
      have hp := @publish_failure customInput r (finish == "length") (s.calls.map Prod.snd)
        s.output s.events
      rcases hq : publish customInput r (finish == "length") (s.calls.map Prod.snd) s.output
        s.events with ⟨⟨output, events⟩, raised⟩
      rw [hq] at he hp
      cases raised with
      | some f =>
        cases he
        exact ⟨f, hp rfl, rfl⟩
      | none => cases he

theorem translate_spoiled (h : scanDatas none data = .spoiled) :
    (translate customInput r data).2 ≠ (translate customInput r (data.map Datum.omitted)).2 := by
  have hscan := body_scan (State.init r) data
  rw [show (State.init r).kind = none from rfl, h] at hscan
  obtain ⟨f, hf, ht⟩ := hscan
  intro he
  have herr : (translate customInput r data).2.error = some (.upstreamError f.message) := by
    unfold translate
    rcases hb : (State.init r).body data with ⟨s, raised⟩
    rw [hb] at hf
    cases hf
    rfl
  rw [he] at herr
  obtain ⟨g, hg, hm⟩ := translate_error (fun f => body_omitted (State.init r) data) _ herr
  exact message_ne ht hg (ResponseError.upstreamError.inj hm)

theorem translate_clean (h : scanDatas none data ≠ .spoiled) :
    translate customInput r (data.map Datum.omitted) = translate customInput r data := by
  have hscan := body_scan (State.init r) data
  rw [show (State.init r).kind = none from rfl] at hscan
  have heq : (State.init r).body (data.map Datum.omitted) = (State.init r).body data := by
    cases hs : scanDatas none data with
    | clear kind | stopped =>
      rw [hs] at hscan
      exact hscan.1
    | spoiled => exact absurd hs h
  rw [translate, heq, translate]

end

/-! ## Complete responses -/

section

variable (customInput : String → Option String) (r : Request)

def ToolCall.nameOf (c : ToolCall) : Option String :=
  (c.function.get?.getD Function.empty).name.get ""

def ToolCall.argumentsOf (c : ToolCall) : Option String :=
  (c.function.get?.getD Function.empty).arguments.get ""

/-- A call of a custom tool whose arguments hold no input, and were not cut off. -/
def refused (truncated : Bool) (c : ToolCall) : Bool :=
  !truncated && r.customNames.any (c.nameOf = some ·) &&
    (inputOf customInput c.argumentsOf).isNone

/-- Neither the name nor the arguments are `null`. -/
def ToolCall.written (c : ToolCall) : Bool := c.nameOf.isSome && c.argumentsOf.isSome

/-- No `function` is `null` up to the first call that is refused, and, where none is, no name and
no arguments are; `kept` is that so far. -/
def callsKept (truncated : Bool) : Bool → List ToolCall → Bool
  | kept, [] => kept
  | kept, c :: cs =>
    c.function != .null &&
      (refused customInput r truncated c || callsKept truncated (kept && c.written) cs)

/-- The condition on a choice that has a finish reason. -/
def Choice.Kept (choice : Choice) : Prop :=
  ∀ finish, truthy choice.finishReason = some finish →
    choice.message ≠ .null ∧ ∀ m, choice.message.get Message.empty = some m →
      m.toolCalls ≠ .null ∧
        callsKept customInput r (finish == "length") true (m.toolCalls.get?.getD [])

/-- The condition on a complete response; one with an error is not looked into. -/
def Payload.Kept (p : Payload) : Prop :=
  p.error = none → ∀ choice rest, p.choices.get? = some (choice :: rest) →
    choice.Kept customInput r

end

section

variable {customInput : String → Option String} {r : Request}

theorem nameOf_omitted (c : ToolCall) : c.omitted.nameOf = some (c.nameOf.getD "") := by
  obtain ⟨id, function⟩ := c
  cases function with
  | absent => rfl
  | null => rfl
  | value f =>
    obtain ⟨name, arguments⟩ := f
    cases name <;> rfl

theorem argumentsOf_omitted (c : ToolCall) :
    c.omitted.argumentsOf = some (c.argumentsOf.getD "") := by
  obtain ⟨id, function⟩ := c
  cases function with
  | absent => rfl
  | null => rfl
  | value f =>
    obtain ⟨name, arguments⟩ := f
    cases arguments <;> rfl

theorem inputOf_getD (arguments : Option String) :
    inputOf customInput (some (arguments.getD "")) = inputOf customInput arguments := by
  cases arguments <;> rfl

variable {truncated : Bool} {c : ToolCall}

theorem callItem_eq {custom : List String} {status : Status} (h : c.function ≠ .null) :
    callItem customInput c custom status truncated =
      itemOf customInput custom status truncated (truthy c.id.get?) c.nameOf c.argumentsOf := by
  rw [callItem, Field.get_of_ne_null h]
  rfl

theorem callItem_omitted (c : ToolCall) {custom : List String} {status : Status} :
    callItem customInput c.omitted custom status truncated =
      itemOf customInput custom status truncated (truthy c.id.get?) (some (c.nameOf.getD ""))
        (some (c.argumentsOf.getD "")) := by
  have hid : c.omitted.id.get? = c.id.get? := by
    unfold ToolCall.omitted
    cases c.id <;> rfl
  rw [callItem_eq (omitted_ne_null _ c.function), nameOf_omitted, argumentsOf_omitted, hid]

/-- The item with the name and the value that take the place of `null`. -/
def CallItem.filled (item : CallItem) : CallItem :=
  { item with name := some (item.name.getD ""), value := some (item.value.getD "") }

theorem itemOf_refused {status : Status} {callId : Option String}
    (h : refused customInput r truncated c) :
    ∃ n, ∀ name arguments, name = c.nameOf ∨ name = some (c.nameOf.getD "") →
      inputOf customInput arguments = inputOf customInput c.argumentsOf →
      itemOf customInput r.customNames status truncated callId name arguments =
        .error (.invalidArguments n) := by
  simp only [refused, Bool.and_eq_true, Bool.not_eq_true', List.any_eq_true, decide_eq_true_eq,
    Option.isNone_iff_eq_none] at h
  obtain ⟨⟨rfl, n, hn, hname⟩, hinput⟩ := h
  refine ⟨n, fun name arguments hor harg => ?_⟩
  have hsome : name = some n := by
    rw [hname] at hor
    exact hor.elim id id
  rw [hsome, itemOf]
  rw [if_pos hn, harg, hinput]
  rfl

theorem itemOf_accepted {status : Status} {callId : Option String}
    (h : refused customInput r truncated c = false) :
    ∃ item, itemOf customInput r.customNames status truncated callId c.nameOf c.argumentsOf =
        .ok item ∧
      itemOf customInput r.customNames status truncated callId (some (c.nameOf.getD ""))
        (some (c.argumentsOf.getD "")) = .ok item.filled ∧
      item.name = c.nameOf ∧ item.value.isSome = c.argumentsOf.isSome := by
  unfold refused at h
  cases hn : c.nameOf with
  | none =>
    refine ⟨_, rfl, ?_, rfl, rfl⟩
    rw [itemOf]
    exact if_neg r.empty_not_custom
  | some n =>
    by_cases hc : n ∈ r.customNames
    · have hany : (r.customNames.any (c.nameOf = some ·)) :=
        List.any_eq_true.mpr ⟨n, hc, decide_eq_true hn⟩
      rw [hany, Bool.and_true] at h
      have hfill : inputOf customInput (some (c.argumentsOf.getD "")) =
          inputOf customInput c.argumentsOf := inputOf_getD _
      cases hi : inputOf customInput c.argumentsOf with
      | some v =>
        have hsome : c.argumentsOf.isSome := by
          cases ha : c.argumentsOf with
          | none => rw [ha] at hi; cases hi
          | some a => rfl
        rw [hi] at hfill
        refine ⟨⟨true, status, callId, some n, none, some v⟩, ?_, ?_, rfl, hsome.symm⟩
        · simp only [itemOf, if_pos hc, hi]
        · simp only [itemOf, Option.getD_some, if_pos hc, hfill, CallItem.filled]
      | none =>
        rw [hi] at h hfill
        have ht : truncated := by simpa using h
        refine ⟨⟨true, .incomplete, callId, some n, none, c.argumentsOf⟩, ?_, ?_, rfl, rfl⟩
        · simp only [itemOf, if_pos hc, hi, if_pos ht]
        · simp only [itemOf, Option.getD_some, if_pos hc, hfill, if_pos ht, CallItem.filled]
    · refine ⟨_, by rw [itemOf]; dsimp only; rw [if_neg hc], ?_, rfl, rfl⟩
      rw [itemOf]
      exact if_neg hc

theorem restoreNamespace_value (item : CallItem) :
    (restoreNamespace r item).value = item.value := by
  unfold restoreNamespace
  induction r.flat generalizing item with
  | nil => rfl
  | cons t flat ih =>
    rw [List.foldl_cons, ih]
    split <;> rfl

theorem restoreNamespace_self {item : CallItem} (h : ∀ t ∈ r.flat, some t.name ≠ item.name) :
    restoreNamespace r item = item := by
  unfold restoreNamespace
  generalize r.flat = flat at h
  induction flat with
  | nil => rfl
  | cons t flat ih =>
    have ht := h t (List.mem_cons_self ..)
    rw [List.foldl_cons, if_neg fun hand => ht hand.1]
    exact ih fun u hu => h u (List.mem_cons_of_mem _ hu)

/-- Filled items differ from those with `null`, also after the namespaces are restored. -/
theorem restored_filled (item : CallItem) :
    restoreNamespace r item = restoreNamespace r item.filled ↔
      item.name.isSome ∧ item.value.isSome := by
  constructor
  · intro h
    constructor
    · cases hn : item.name with
      | some n => rfl
      | none =>
        have hself : restoreNamespace r item = item :=
          restoreNamespace_self fun t _ => by rw [hn]; exact Option.some_ne_none _
        have hfill : restoreNamespace r item.filled = item.filled := by
          refine restoreNamespace_self fun t ht he => ?_
          have hname : item.filled.name = some "" := by rw [CallItem.filled, hn]; rfl
          exact flatten_name r.flattened t ht (Option.some.inj (he.trans hname))
        rw [hself, hfill] at h
        have hname := congrArg CallItem.name h
        cases hn.symm.trans hname
    · have hv := congrArg CallItem.value h
      rw [restoreNamespace_value, restoreNamespace_value] at hv
      rw [hv]
      rfl
  · rintro ⟨hn, hv⟩
    obtain ⟨custom, status, callId, name, space, value⟩ := item
    cases name with
    | none => cases hn
    | some n =>
      cases value with
      | none => cases hv
      | some v => rfl

theorem callItems_omitted_failure {status : Status} {cs : List ToolCall} {f : Failure}
    (hf : callItems customInput r status truncated (cs.map ToolCall.omitted) = .error f) :
    ∃ n, f = .invalidArguments n := by
  induction cs with
  | nil => cases hf
  | cons c cs ih =>
    rw [List.map_cons, callItems, callItem_omitted] at hf
    split at hf
    · next g hg =>
      cases hf
      exact itemOf_failure hg
    · split at hf
      · next g hg =>
        cases hf
        exact ih hg
      · cases hf

/-- The calls of a payload and of the payload without nulls: the same call is refused, or both are
translated alike. -/
theorem callItems_kept {status : Status} {truncated kept : Bool} {cs : List ToolCall} :
    callsKept customInput r truncated kept cs ↔
      (∃ f, callItems customInput r status truncated cs = .error f ∧
          callItems customInput r status truncated (cs.map ToolCall.omitted) = .error f) ∨
        (kept ∧ ∃ items, callItems customInput r status truncated cs = .ok items ∧
          callItems customInput r status truncated (cs.map ToolCall.omitted) = .ok items) := by
  induction cs generalizing kept with
  | nil =>
    constructor
    · exact fun h => Or.inr ⟨h, [], rfl, rfl⟩
    · rintro (⟨f, hf, _⟩ | ⟨h, _⟩)
      · cases hf
      · exact h
  | cons c cs ih =>
    by_cases hnull : c.function = .null
    · have herr : callItems customInput r status truncated (c :: cs) = .error .noAttribute := by
        rw [callItems, callItem, hnull]
        rfl
      rw [callsKept, hnull, herr]
      constructor
      · intro h
        cases h
      · rintro (⟨f, hf, hf'⟩ | ⟨_, items, hi, _⟩)
        · cases hf
          obtain ⟨n, hn⟩ := callItems_omitted_failure hf'
          cases hn
        · cases hi
    · have hne : (c.function != .null) = true := bne_iff_ne.mpr hnull
      rw [callsKept, hne, Bool.true_and, List.map_cons, callItems, callItems, callItem_omitted,
        callItem_eq hnull]
      cases href : refused customInput r truncated c with
      | true =>
        obtain ⟨n, hn⟩ := @itemOf_refused customInput r truncated c status (truthy c.id.get?) href
        rw [hn _ _ (Or.inl rfl) rfl, hn _ _ (Or.inr rfl) (inputOf_getD _)]
        exact iff_of_true rfl (Or.inl ⟨_, rfl, rfl⟩)
      | false =>
        obtain ⟨item, hi, hi', hname, hvalue⟩ :=
          @itemOf_accepted customInput r truncated c status (truthy c.id.get?) href
        have hw : (restoreNamespace r item = restoreNamespace r item.filled) ↔ c.written := by
          rw [restored_filled, hname, hvalue, ToolCall.written, Bool.and_eq_true]
        rw [hi, hi', Bool.false_or, ih]
        cases callItems customInput r status truncated cs with
        | error f =>
          cases callItems customInput r status truncated (cs.map ToolCall.omitted) with
          | error g => simp
          | ok items' => simp
        | ok items =>
          cases callItems customInput r status truncated (cs.map ToolCall.omitted) with
          | error g => simp
          | ok items' =>
            constructor
            · rintro (⟨f, hf, _⟩ | ⟨hk, i, hi, hi'⟩)
              · cases hf
              · cases hi
                cases hi'
                obtain ⟨hk, hwritten⟩ := (Bool.and_eq_true _ _).mp hk
                exact Or.inr ⟨hk, _, rfl, by rw [hw.mpr hwritten]⟩
            · rintro (⟨f, hf, _⟩ | ⟨hk, i, hi, hi'⟩)
              · cases hf
              · cases hi
                obtain ⟨he, rfl⟩ := List.cons.inj (Except.ok.inj hi')
                exact Or.inr ⟨(Bool.and_eq_true _ _).mpr ⟨hk, hw.mp he.symm⟩, _, rfl, rfl⟩

theorem fromMessage_omitted_failure {finish : String} {u : Field Usage} {m : Message} {f : Failure}
    (hf : fromMessage customInput r finish u m.omitted = .error f) :
    ∃ n, f = .invalidArguments n := by
  unfold fromMessage Message.omitted at hf
  rw [Field.get_omitted] at hf
  dsimp only at hf
  split at hf
  · next g hg =>
    cases hf
    cases htool : m.toolCalls.get? with
    | none =>
      rw [htool] at hg
      cases hg
    | some calls =>
      rw [htool] at hg
      exact callItems_omitted_failure hg
  · cases hf

theorem fromMessage_kept {finish : String} {u : Field Usage} {m : Message} :
    (m.toolCalls ≠ .null ∧
        callsKept customInput r (finish == "length") true (m.toolCalls.get?.getD [])) ↔
      fromMessage customInput r finish u m =
        fromMessage customInput r finish (u.omitted fun u => u) m.omitted := by
  by_cases hnull : m.toolCalls = .null
  · have herr : fromMessage customInput r finish u m = .error .notIterable := by
      rw [fromMessage, hnull]
      rfl
    rw [herr]
    constructor
    · exact fun h => absurd hnull h.1
    · intro h
      obtain ⟨n, hn⟩ := fromMessage_omitted_failure h.symm
      cases hn
  · have hu : (u.omitted fun u => u).get? = u.get? := by cases u <;> rfl
    have hc : m.omitted.content.get? = m.content.get? := by
      unfold Message.omitted
      cases m.content <;> rfl
    have hr : m.omitted.refusal.get? = m.refusal.get? := by
      unfold Message.omitted
      cases m.refusal <;> rfl
    have ht : m.omitted.toolCalls.get [] =
        some ((m.toolCalls.get?.getD []).map ToolCall.omitted) := by
      unfold Message.omitted
      cases m.toolCalls <;> rfl
    rw [and_iff_right hnull, @callItems_kept customInput r (finalStatus finish)]
    unfold fromMessage
    rw [Field.get_of_ne_null hnull, ht, hu, hc, hr]
    dsimp only
    rcases callItems customInput r (finalStatus finish) (finish == "length")
      (m.toolCalls.get?.getD []) with f | items
    · rcases callItems customInput r (finalStatus finish) (finish == "length")
        ((m.toolCalls.get?.getD []).map ToolCall.omitted) with g | items'
      · simp [eq_comm]
      · simp
    · rcases callItems customInput r (finalStatus finish) (finish == "length")
        ((m.toolCalls.get?.getD []).map ToolCall.omitted) with g | items'
      · simp
      · have hinj : ∀ l, items.map Item.call = l.map Item.call ↔ items = l := fun l =>
          (List.map_injective_iff.mpr fun a b h => Item.call.inj h).eq_iff
        simp [hinj, eq_comm]

theorem fromChoice_omitted_failure {u : Field Usage} {choice : Choice} {f : Failure}
    (hf : fromChoice customInput r u choice.omitted = .error f) :
    f = .noFinishReason ∨ ∃ n, f = .invalidArguments n := by
  unfold fromChoice Choice.omitted at hf
  rw [Field.get_omitted] at hf
  split at hf
  · cases hf
    exact Or.inl rfl
  · refine Or.inr ?_
    cases hm : choice.message.get? with
    | none =>
      rw [hm] at hf
      exact @fromMessage_omitted_failure _ _ _ _ Message.empty _ hf
    | some m =>
      rw [hm] at hf
      exact fromMessage_omitted_failure hf

theorem fromChoice_kept {u : Field Usage} {choice : Choice} :
    choice.Kept customInput r ↔
      fromChoice customInput r u choice =
        fromChoice customInput r (u.omitted fun u => u) choice.omitted := by
  obtain ⟨reason, message⟩ := choice
  have hclean : ∀ f, fromChoice customInput r (u.omitted fun u => u)
      (Choice.omitted ⟨reason, message⟩) = .error f → f ≠ .noAttribute := by
    rintro f hf rfl
    rcases fromChoice_omitted_failure hf with h | ⟨n, h⟩ <;> cases h
  unfold Choice.Kept
  cases hfin : truthy reason with
  | none =>
    simp [fromChoice, Choice.omitted, hfin]
  | some finish =>
    cases message with
    | null =>
      refine iff_of_false (fun h => (h finish rfl).1 rfl) fun h => ?_
      rw [fromChoice, hfin] at h
      exact hclean _ h.symm rfl
    | absent =>
      have h := @fromMessage_kept customInput r finish u Message.empty
      unfold fromChoice Choice.omitted
      rw [hfin]
      constructor
      · exact fun hk => h.mp ((hk finish rfl).2 _ rfl)
      · intro he finish' hfin'
        cases hfin'
        exact ⟨nofun, fun m hm => by cases hm; exact h.mpr he⟩
    | value m =>
      have h := @fromMessage_kept customInput r finish u m
      unfold fromChoice Choice.omitted
      rw [hfin]
      constructor
      · exact fun hk => h.mp ((hk finish rfl).2 _ rfl)
      · intro he finish' hfin'
        cases hfin'
        exact ⟨nofun, fun m' hm => by cases hm; exact h.mpr he⟩

variable {p : Payload}

/-- The payload is translated like the one without nulls exactly when it is `Kept`. -/
theorem fromChatResponse'_kept :
    p.Kept customInput r ↔
      fromChatResponse' customInput r p = fromChatResponse' customInput r p.omitted := by
  obtain ⟨error, choices, usage⟩ := p
  unfold Payload.Kept fromChatResponse' Payload.omitted
  cases error with
  | some e => exact iff_of_true nofun rfl
  | none =>
    rw [Field.get?_omitted]
    cases choices.get? with
    | none => exact iff_of_true nofun rfl
    | some l =>
      cases l with
      | nil => exact iff_of_true nofun rfl
      | cons choice rest =>
        have h := @fromChoice_kept customInput r usage choice
        constructor
        · exact fun hk => h.mp (hk rfl choice rest rfl)
        · intro he _ c l hc
          cases hc
          exact h.mpr he

/-- Without nulls, nothing is malformed. -/
theorem fromChatResponse'_omitted_failure {f : Failure}
    (hf : fromChatResponse' customInput r p.omitted = .error f) :
    f.isTypeError = false ∧ f ≠ .malformed := by
  unfold fromChatResponse' Payload.omitted at hf
  rw [Field.get?_omitted] at hf
  split at hf
  · cases hf
  · rcases hc : p.choices.get? with _ | _ | ⟨choice, rest⟩
    · rw [hc] at hf
      cases hf
      exact ⟨rfl, nofun⟩
    · rw [hc] at hf
      cases hf
      exact ⟨rfl, nofun⟩
    · rw [hc] at hf
      rcases fromChoice_omitted_failure hf with rfl | ⟨n, rfl⟩
      · exact ⟨rfl, nofun⟩
      · exact ⟨rfl, nofun⟩

theorem fromChatResponse_kept :
    p.Kept customInput r ↔
      fromChatResponse customInput r p.omitted = fromChatResponse customInput r p := by
  rw [fromChatResponse'_kept, fromChatResponse, fromChatResponse]
  constructor
  · exact fun h => by rw [h]
  · intro h
    rcases ho : fromChatResponse' customInput r p.omitted with g | resp
    · obtain ⟨hg, hm⟩ := fromChatResponse'_omitted_failure ho
      rw [ho] at h
      rcases hp : fromChatResponse' customInput r p with f | resp
      · rw [hp] at h
        have he := Except.error.inj h
        rw [hg] at he
        cases hf : f.isTypeError with
        | true =>
          rw [hf] at he
          exact absurd he hm
        | false =>
          rw [hf] at he
          rw [show g = f from he]
      · rw [hp] at h
        cases h
    · rw [ho] at h
      rcases hp : fromChatResponse' customInput r p with f | resp
      · rw [hp] at h
        cases h
      · rw [hp] at h
        exact h.symm

/-! ## The two translators -/

/-- `clean` is read as `upstream` is, with the `null` fields left out. -/
def WithoutNulls (dec : Decoder) (loads : List Char → Datum) (upstream clean : List Piece) : Prop :=
  readStream dec loads clean = (readStream dec loads upstream).map Datum.omitted

/-- Null fields make no difference exactly where the loop meets none that it cannot read, and the
complete response is `Kept`. -/
theorem nulls_ignored_iff {dec : Decoder} {loads : List Char → Datum} {upstream clean : List Piece}
    (h : WithoutNulls dec loads upstream clean) (p : Payload) :
    (streamChatResponse customInput dec loads r clean =
          streamChatResponse customInput dec loads r upstream ↔
        scanDatas none (readStream dec loads upstream) ≠ .spoiled) ∧
      (fromChatResponse customInput r p.omitted = fromChatResponse customInput r p ↔
        p.Kept customInput r) := by
  refine ⟨⟨fun he hs => ?_, fun hs => ?_⟩, fromChatResponse_kept.symm⟩
  · unfold streamChatResponse at he
    rw [h] at he
    have hlast := (List.append_inj' he rfl).2
    exact translate_spoiled hs (Event.terminal.inj (List.cons.inj hlast).1).symm
  · unfold streamChatResponse
    rw [h, translate_clean hs]

end

/-! ## A stream with `"choices": null` -/

/-- A decoder for upstreams of text. -/
def textOnly : Decoder := ⟨Unit, (), fun _ _ => .ok ((), []), fun _ => .ok []⟩

def stopChunk : Chunk :=
  ⟨none, .absent, .value [⟨none, some "stop", .value ⟨.value "ok", .absent, .absent⟩⟩]⟩

/-- The text of `stopChunk`. -/
def stopText : String :=
  "\x7b\"choices\":[\x7b\"finish_reason\":\"stop\",\"delta\":\x7b\"content\":\"ok\"\x7d\x7d]\x7d"

/-- What `json.loads` reads from three texts. -/
def loadsThree (data : List Char) : Datum :=
  if data = "\x7b\"choices\":null\x7d".toList then .chunk ⟨none, .absent, .null⟩
  else if data = "\x7b\x7d".toList then .chunk ⟨none, .absent, .absent⟩
  else .chunk stopChunk

def plainRequest : Request := ⟨none, true, [], [], rfl⟩

def nullStream : List Piece :=
  [.text "data: \x7b\"choices\":null\x7d\n\n".toList,
    .text ("data: " ++ stopText ++ "\n\ndata: [DONE]\n\n").toList]

def cleanStream : List Piece :=
  [.text "data: \x7b\x7d\n\n".toList,
    .text ("data: " ++ stopText ++ "\n\ndata: [DONE]\n\n").toList]

theorem nullStream_clean : WithoutNulls textOnly loadsThree nullStream cleanStream := by
  rfl

/-- Null fields never make a difference. -/
def NullsIgnored : Prop :=
  ∀ (customInput : String → Option String) (dec : Decoder) (loads : List Char → Datum)
    (r : Request),
    (∀ upstream clean, WithoutNulls dec loads upstream clean →
      streamChatResponse customInput dec loads r clean =
        streamChatResponse customInput dec loads r upstream) ∧
    ∀ p : Payload, fromChatResponse customInput r p.omitted = fromChatResponse customInput r p

/-- The stream whose first chunk has `"choices": null` fails; without the field it completes. -/
theorem null_choices_fail : ¬NullsIgnored := by
  intro h
  have he := (h (fun _ => none) textOnly loadsThree plainRequest).1 _ _ nullStream_clean
  revert he
  decide +kernel

/-- A message with `"tool_calls": null`. -/
def nullCalls : Payload :=
  ⟨none, .value [⟨some "stop", .value ⟨.value "ok", .null, .null⟩⟩], .absent⟩

theorem nulls_ignored_iff_nullStream :
    streamChatResponse (fun _ => none) textOnly loadsThree plainRequest cleanStream ≠
        streamChatResponse (fun _ => none) textOnly loadsThree plainRequest nullStream ∧
      ¬nullCalls.Kept (fun _ => none) plainRequest :=
  have hiff := @nulls_ignored_iff (fun _ => none) plainRequest _ _ _ _ nullStream_clean nullCalls
  ⟨fun he => hiff.1.mp he (by decide +kernel), fun hk => by
    have he := hiff.2.mpr hk
    cases he⟩

end SparkDeck.Responses
