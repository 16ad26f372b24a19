import SparkDeck.Lib.Effect
import SparkDeck.Responses.Stream

/-!
# The event stream of a response, for any upstream

Model of `stream_chat_response` (`sparkdeck/responses.py:121-129`, `:157-179`, `:267-360`) with the
sequence numbers and ids of its events, over JSON values of any shape.

* `Python` is what `json` and the operators of the language do with a value that was read: each of
  them may raise, and `json.dumps` may refuse to write a number it has read the summands of.
* A program is an `EStateM` whose error is the text of what was raised. `response["output"]`, the
  message that is also an entry of it, and the numbers of `sequence` and of `_id` are its state.
* The upstream is what `_sse_payloads` yields of it (`Responses.ssePayloads`), and what it raises
  then, if anything: an undecodable piece, or the upstream's own exception.
* Left out: `object`, `created_at`, `store`, `role`, `annotations`, `logprobs`, and the generated
  `call_id`, which nothing reads.
-/

namespace SparkDeck.EventStream

open Responses (Request CallItem Part Status Reason CallState finalStatus incompleteDetails
  restoreNamespace truthy)

structure Python where
  Value : Type
  Key : Type
  sameKey : DecidableEq Key
  /-- `json.loads` -/
  loads : List Char → Except String Value
  /-- `json.loads(arguments)["input"]`; `none` where that raises a `ValueError`, a `KeyError` or a
  `TypeError`, or is no string. -/
  input : String → Except String (Option String)
  /-- `json.dumps` writes the value. -/
  writes : Value → Bool
  /-- What `json.dumps` raises of a value it does not write. -/
  unwritten : String
  /-- `value.get(key)`; `none` inside where the key is absent. -/
  get : Value → String → Except String (Option Value)
  truth : Value → Bool
  iter : Value → Except String (List Value)
  str : Value → String
  /-- The text of a `str`. -/
  text : Value → Option String
  /-- What adding the value to a `str` raises. -/
  notText : Value → String
  add : Value → Value → Except String Value
  zero : Value
  /-- `value == 0` -/
  isZero : Value → Bool
  /-- The value as a key of a dictionary. -/
  key : Value → Except String Key
  keyZero : Key

/-! ## Events -/

/-- An item of `response["output"]`. -/
inductive Entry where
  | message (id : ℕ) (status : Status) (content : List Part)
  | call (id : ℕ) (c : CallItem)
  deriving DecidableEq

def Entry.id : Entry → ℕ
  | .message id _ _ => id
  | .call id _ => id

/-- What `_usage` makes of a `usage` object. -/
structure Usage (V : Type) where
  inputTokens : V
  cachedTokens : V
  outputTokens : V
  reasoningTokens : V
  totalTokens : V

structure Snapshot (V : Type) where
  status : Status
  error : Option String
  incompleteDetails : Option Reason
  model : Option String
  output : List Entry
  usage : Option (Usage V)
  parallelToolCalls : Bool

inductive Event (V : Type) where
  | created (response : Snapshot V)
  | inProgress (response : Snapshot V)
  | itemAdded (index : ℕ) (item : Entry)
  | partAdded (id index : ℕ) (part : Part)
  /-- `response.refusal.delta` or `response.output_text.delta` -/
  | textDelta (id index : ℕ) (refusal : Bool) (delta : String)
  | callDelta (id index : ℕ) (custom : Bool) (delta : String)
  | callDone (id index : ℕ) (custom : Bool) (value : String)
  /-- `response.refusal.done` or `response.output_text.done` -/
  | textDone (id index : ℕ) (part : Part)
  | partDone (id index : ℕ) (part : Part)
  | itemDone (index : ℕ) (item : Entry)
  /-- `response.completed`, `response.incomplete` or `response.failed` -/
  | terminal (response : Snapshot V)

section

variable (p : Python)

def Usage.all (u : Usage p.Value) (f : p.Value → Bool) : Bool :=
  f u.inputTokens && f u.cachedTokens && f u.outputTokens && f u.reasoningTokens &&
    f u.totalTokens

/-- `json.dumps` writes the payload: of what comes from the upstream, only the numbers of `usage`
are not strings. -/
def Event.written : Event p.Value → Bool
  | .created response | .inProgress response | .terminal response =>
    response.usage.all fun u => u.all p p.writes
  | _ => true

/-- The variables of `stream_chat_response`. -/
structure State where
  sequence : ℕ
  /-- What was yielded, with its sequence numbers. -/
  emitted : List (ℕ × Event p.Value)
  /-- How many ids were generated. -/
  ids : ℕ
  output : List Entry
  usage : Option (Usage p.Value)
  /-- The entry of the output that `message` is. -/
  message : Option ℕ
  calls : List (p.Key × CallState)
  finish : Option p.Value

def State.init : State p := ⟨0, [], 0, [], none, none, [], none⟩

abbrev M := EStateM String (State p)

/-! ## Steps -/

/-- An expression that reads no variable. -/
def eval {α : Type} : Except String α → M p α
  | .ok a => pure a
  | .error e => throw e

/-- `event` -/
def event (e : Event p.Value) : M p Unit := fun s =>
  if e.written p then
    .ok () { s with sequence := s.sequence + 1, emitted := s.emitted ++ [(s.sequence, e)] }
  else .error p.unwritten { s with sequence := s.sequence + 1 }

/-- `_id` -/
def freshId : M p ℕ := fun s => .ok s.ids { s with ids := s.ids + 1 }

/-- `value.get(key)` of a value whose default is the empty dictionary. -/
def getIn (v : Option p.Value) (key : String) : Except String (Option p.Value) :=
  v.elim (.ok none) fun v => p.get v key

/-- The iteration of a value whose default is the empty list. -/
def iterate (v : Option p.Value) : Except String (List p.Value) := v.elim (.ok []) p.iter

/-- `s + (value or "")` -/
def addText (s : String) (v : Option p.Value) : Except String String :=
  match v.filter p.truth with
  | none => .ok s
  | some v =>
    match p.text v with
    | some t => .ok (s ++ t)
    | none => .error (p.notText v)

/-- `_usage` -/
def usage (u : p.Value) : Except String (Usage p.Value) := do
  let input ← p.get u "prompt_tokens"
  let details ← p.get u "prompt_tokens_details"
  let cached ← getIn p (details.filter p.truth) "cached_tokens"
  let output ← p.get u "completion_tokens"
  let details ← p.get u "completion_tokens_details"
  let reasoning ← getIn p (details.filter p.truth) "reasoning_tokens"
  let sum ← p.add (input.getD p.zero) (output.getD p.zero)
  let total ← p.get u "total_tokens"
  .ok ⟨input.getD p.zero, cached.getD p.zero, output.getD p.zero, reasoning.getD p.zero,
    total.getD sum⟩

def snapshot (r : Request) (s : State p) (status : Status) (error : Option String)
    (details : Option Reason) : Snapshot p.Value :=
  ⟨status, error, details, r.model, s.output, s.usage, r.parallelToolCalls⟩

/-! ## One payload -/

/-- The message starts, with an empty part. -/
def openMessage (refusal : Bool) : M p ℕ := do
  let id ← freshId p
  let index := (← get).output.length
  modify fun s =>
    { s with message := some index, output := s.output ++ [.message id .inProgress []] }
  event p (.itemAdded index (.message id .inProgress []))
  modify fun s => { s with output := s.output.set index (.message id .inProgress [⟨refusal, ""⟩]) }
  event p (.partAdded id index ⟨refusal, ""⟩)
  pure index

/-- The position of the message, which starts if there is none. -/
def messageIndex (refusal : Bool) : M p ℕ := do
  match (← get).message with
  | some i => pure i
  | none => openMessage p refusal

/-- A text that is true. -/
def say (refusal : Bool) (text : p.Value) : M p Unit := do
  let i ← messageIndex p refusal
  let s ← get
  match s.output[i]? with
  | some (.message id status (part :: rest)) =>
    if refusal ≠ part.refusal then throw "Upstream mixed text and refusal in the same message"
    else
      match p.text text with
      | none => throw (p.notText text)
      | some t =>
        modify fun s =>
          let parts := ⟨refusal, part.text ++ t⟩ :: rest
          { s with output := s.output.set i (.message id status parts) }
        -- `response["output"].index(message)`
        event p (.textDelta id (s.output.idxOf (.message id status (part :: rest))) refusal t)
  | _ => pure ()

/-- `calls.setdefault` -/
def touch (key : p.Key) (calls : List (p.Key × CallState)) : List (p.Key × CallState) :=
  let _ := p.sameKey
  if calls.any (fun x => x.1 = key) then calls else calls ++ [(key, CallState.empty)]

/-- The state of one call is replaced. -/
def update (key : p.Key) (f : CallState → CallState) (calls : List (p.Key × CallState)) :
    List (p.Key × CallState) :=
  let _ := p.sameKey
  calls.map fun x => if x.1 = key then (x.1, f x.2) else x

def callDelta (d : p.Value) : M p Unit := do
  let index ← eval p (p.get d "index")
  let key ← eval p (index.elim (.ok p.keyZero) p.key)
  modify fun s => { s with calls := touch p key s.calls }
  let _ := p.sameKey
  let state := ((← get).calls.find? fun x => x.1 = key).elim CallState.empty (·.2)
  let id ← eval p ((p.get d "id").bind (addText p state.id))
  modify fun s => { s with calls := update p key (fun c => { c with id := id }) s.calls }
  let function := (← eval p (p.get d "function")).filter p.truth
  let name ← eval p ((getIn p function "name").bind (addText p state.name))
  modify fun s => { s with calls := update p key (fun c => { c with name := name }) s.calls }
  let arguments ← eval p ((getIn p function "arguments").bind (addText p state.arguments))
  modify fun s =>
    { s with calls := update p key (fun c => { c with arguments := arguments }) s.calls }

/-- The text or the refusal of a delta. -/
def speak (content refusal : Option p.Value) : M p Unit :=
  match (content.filter p.truth).or (refusal.filter p.truth) with
  | some text => say p (refusal.any p.truth) text
  | none => pure ()

def choice (c : p.Value) : M p Unit := do
  let index ← eval p (p.get c "index")
  if index.all p.isZero then
    let delta ← eval p (p.get c "delta")
    let reason ← eval p (p.get c "finish_reason")
    modify fun s => { s with finish := (reason.filter p.truth).or s.finish }
    let content ← eval p (getIn p delta "content")
    let refusal ← eval p (getIn p delta "refusal")
    speak p content refusal
    let calls ← eval p ((getIn p delta "tool_calls").bind (iterate p))
    calls.forM (callDelta p)

/-- The usage of a chunk. -/
def noteUsage (c : p.Value) : M p Unit := do
  match (← eval p (p.get c "usage")).filter p.truth with
  | some u =>
    let u ← eval p (usage p u)
    modify fun s => { s with usage := some u }
  | none => pure ()

/-- A chunk is read, and its usage. -/
def chunkOf (data : List Char) : M p p.Value := do
  let c ← eval p (p.loads data)
  match (← eval p (p.get c "error")).filter p.truth with
  | some e => throw (p.str e)
  | none =>
    noteUsage p c
    pure c

def chunk (data : List Char) : M p Unit := do
  let c ← chunkOf p data
  let choices ← eval p ((p.get c "choices").bind (iterate p))
  choices.forM (choice p)

/-- The loop over the payloads, and what ends it. -/
def payloads : List (List Char) → Option String → M p Unit
  | [], none => pure ()
  | [], some raised => throw raised
  | data :: rest, raised =>
    if data = "[DONE]".toList then pure ()
    else do
      chunk p data
      payloads rest raised

/-! ## The end -/

/-- `_call_item` of an assembled call; its `_id` is generated after it. -/
def callItem (r : Request) (truncated : Bool) (s : CallState) : Except String CallItem :=
  let item : CallItem :=
    ⟨false, .inProgress, truthy (some s.id), some s.name, none, some s.arguments⟩
  if s.name ∈ r.customNames then
    match p.input s.arguments with
    | .error e => .error e
    | .ok (some value) => .ok { item with custom := true, value := some value }
    | .ok none =>
      if truncated then .ok { item with custom := true, status := .incomplete }
      else .error ("Invalid arguments from custom tool " ++ s.name)
  else .ok item

/-- One turn of the loop over the assembled calls. -/
def publish (r : Request) (truncated : Bool) (call : CallState) : M p Unit := do
  let item := restoreNamespace r (← eval p (callItem p r truncated call))
  let id ← freshId p
  let value := item.value.getD ""
  let index := (← get).output.length
  modify fun s => { s with output := s.output ++ [.call id { item with value := some "" }] }
  event p (.itemAdded index (.call id { item with value := some "" }))
  event p (.callDelta id index item.custom value)
  modify fun s => { s with output := s.output.set index (.call id item) }
  event p (.callDone id index item.custom value)

def Entry.withStatus (status : Status) : Entry → Entry
  | .message id _ content => .message id status content
  | .call id c => .call id { c with status := status }

/-- One turn of the loop that closes the items. -/
def close (status : Status) (index : ℕ) : M p Unit := do
  modify fun s => { s with output := s.output.modify index (Entry.withStatus status) }
  match (← get).output[index]? with
  | some (.message id status content) =>
    match content with
    | [] => throw "list index out of range"
    | part :: rest =>
      event p (.textDone id index part)
      event p (.partDone id index part)
      event p (.itemDone index (.message id status (part :: rest)))
  | some (.call id c) => event p (.itemDone index (.call id c))
  | none => pure ()

/-- What follows the loop over the payloads. -/
def conclude (r : Request) : M p Unit := do
  match (← get).finish with
  | none => throw "Upstream stream ended before a finish reason"
  | some finish =>
    let finish := (p.text finish).getD ""
    ((← get).calls.map (·.2)).forM (publish p r (finish = "length"))
    (List.range (← get).output.length).forM (close p (finalStatus finish))
    event p (.terminal
      (snapshot p r (← get) (finalStatus finish) none (incompleteDetails finish)))

/-- `stream_chat_response` -/
def streamChatResponse (r : Request) (data : List (List Char)) (raised : Option String) :
    M p Unit :=
  tryCatch (do
      event p (.created (snapshot p r (← get) .inProgress none none))
      event p (.inProgress (snapshot p r (← get) .inProgress none none))
      payloads p data raised
      conclude p r)
    fun e => do event p (.terminal (snapshot p r (← get) .failed (some e) none))

/-- The state a stream ends in, whether the generator returns or raises. -/
def ended (r : Request) (data : List (List Char)) (raised : Option String) : State p :=
  match streamChatResponse p r data raised (State.init p) with
  | .ok _ s | .error _ s => s

end

end SparkDeck.EventStream
