import Mathlib.Algebra.Group.Int.Defs
import Mathlib.Data.List.Basic

/-!
# Chat completions as responses

Model of the data of `sparkdeck/responses.py` and of `from_chat_response`: the request's tools
(`_flat_tools`, `_custom_names`, `_restore_namespace`), `_usage`, `_response`, `_call_item` and
`_from_chat_response`.

* A JSON field is a `Field`: absent, written as `null`, or with a value. `d.get(k, default)` is
  `Field.get`, whose `none` is Python's `None`; `d.get(k)` is `Field.get?`. `Payload.omitted` leaves
  out the optional fields that are `null`. A finish reason or an error object that is absent, `null`
  or false is `none`.
* `customInput` stands for `json.loads(arguments)["input"]` of arguments that are not empty: `none`
  where it raises or is no string.
* Generated ids and `created_at` are left out; a generated `call_id` is `none`. So is what no
  translator reads: roles, `annotations`, `logprobs`, `object`, `store`.
* A failure is a `Failure` with the text `Failure.message`. The attribute and type errors of Python
  are the two constructors that `isTypeError` accepts.
-/

namespace SparkDeck.Responses

/-! ## JSON fields -/

/-- An optional field of a JSON object. -/
inductive Field (α : Type) where
  | absent
  | null
  | value (a : α)
  deriving DecidableEq

namespace Field

variable {α β : Type}

/-- `d.get(k, default)`. -/
def get (default : α) : Field α → Option α
  | absent => some default
  | null => none
  | value a => some a

/-- `d.get(k)`. -/
def get? : Field α → Option α
  | value a => some a
  | _ => none

/-- The field left out where it is `null`, and `f` applied to its value. -/
def omitted (f : α → β) : Field α → Field β
  | value a => value (f a)
  | _ => absent

@[simp] theorem get?_omitted (f : α → β) (x : Field α) : (x.omitted f).get? = x.get?.map f := by
  cases x <;> rfl

@[simp] theorem get_omitted (f : α → β) (b : β) (x : Field α) :
    (x.omitted f).get b = some ((x.get?.map f).getD b) := by
  cases x <;> rfl

theorem get_of_ne_null {d : α} {x : Field α} (h : x ≠ null) : x.get d = some (x.get?.getD d) := by
  cases x with
  | absent => rfl
  | null => exact absurd rfl h
  | value a => rfl

end Field

/-- The value of `d.get(k) or ""`. -/
def orEmpty (f : Field String) : String := f.get?.getD ""

@[simp] theorem orEmpty_omitted (f : Field String) :
    orEmpty (f.omitted fun s => s) = orEmpty f := by
  cases f <;> rfl

/-- A finish reason or an id that is true. -/
def truthy (s : Option String) : Option String := s.filter (· ≠ "")

/-! ## Chat payloads -/

/-- An error object; its text is that of a Python dictionary. -/
structure ErrorObject where
  fields : String
  deriving DecidableEq

/-- `str(error)`. -/
def ErrorObject.str (e : ErrorObject) : String := "\x7b" ++ e.fields

/-- The text of an undecodable piece or payload; `None` has no part in it. -/
structure DecodeError where
  text : String
  other : ∀ rest, text ≠ "'NoneType'" ++ rest

/-- The `usage` object; `others` says that it has a key that is not read. -/
structure Usage where
  promptTokens : Option ℤ
  completionTokens : Option ℤ
  totalTokens : Option ℤ
  cachedTokens : Field (Option ℤ)
  reasoningTokens : Field (Option ℤ)
  others : Bool

/-- A dictionary is true when it has a key. -/
def Usage.isTrue (u : Usage) : Bool :=
  u.promptTokens.isSome || u.completionTokens.isSome || u.totalTokens.isSome ||
    u.cachedTokens != .absent || u.reasoningTokens != .absent || u.others

structure Function where
  name : Field String
  arguments : Field String
  deriving DecidableEq

structure ToolCall where
  id : Field String
  function : Field Function
  deriving DecidableEq

structure Message where
  content : Field String
  refusal : Field String
  toolCalls : Field (List ToolCall)

structure Choice where
  finishReason : Option String
  message : Field Message

/-- A complete upstream response. -/
structure Payload where
  error : Option ErrorObject
  choices : Field (List Choice)
  usage : Field Usage

def Function.empty : Function := ⟨.absent, .absent⟩
def Message.empty : Message := ⟨.absent, .absent, .absent⟩

def Function.omitted (f : Function) : Function :=
  ⟨f.name.omitted fun s => s, f.arguments.omitted fun s => s⟩

def ToolCall.omitted (c : ToolCall) : ToolCall :=
  ⟨c.id.omitted fun s => s, c.function.omitted Function.omitted⟩

def Message.omitted (m : Message) : Message :=
  ⟨m.content.omitted fun s => s, m.refusal.omitted fun s => s,
    m.toolCalls.omitted (List.map ToolCall.omitted)⟩

def Choice.omitted (c : Choice) : Choice :=
  { c with message := c.message.omitted Message.omitted }

/-- The payload with its `null` fields left out. -/
def Payload.omitted (p : Payload) : Payload :=
  ⟨p.error, p.choices.omitted (List.map Choice.omitted), p.usage.omitted fun s => s⟩

/-! ## The request -/

inductive Kind where
  | function
  | custom
  | namespaced
  deriving DecidableEq

structure Child where
  kind : Kind
  name : Option String

structure Tool extends Child where
  tools : List Child

/-- A tool of `_flat_tools`: its name on the wire, its namespace, and its own name. -/
structure Flat where
  name : String
  kind : Kind
  space : Option String
  child : String
  deriving DecidableEq

/-- The children of a namespace with a name, or the tool itself. -/
def Tool.children (t : Tool) : List (Child × Option String) :=
  match t.kind, truthy t.name with
  | .namespaced, some n => t.tools.map fun c => (c, some n)
  | _, _ => [(t.toChild, none)]

/-- The name of a tool on the wire. -/
def wireName (space : Option String) (child : String) : String :=
  match space with
  | some n => n ++ "__" ++ child
  | none => child

def flatten : List (Child × Option String) → List String → Option (List Flat)
  | [], _ => some []
  | (c, ns) :: rest, names =>
    match c.name with
    | none => none
    | some child =>
      if wireName ns child = "" ∨ wireName ns child ∈ names then none
      else
        (flatten rest (wireName ns child :: names)).map
          (⟨wireName ns child, c.kind, ns, child⟩ :: ·)

/-- `_flat_tools`; `none` where it raises. -/
def flatTools (tools : List Tool) : Option (List Flat) :=
  flatten (tools.flatMap Tool.children) []

/-- A request that `to_chat_request` has accepted, so its tools flatten. -/
structure Request where
  model : Option String
  parallelToolCalls : Bool
  tools : List Tool
  flat : List Flat
  flattened : flatTools tools = some flat

def Request.customNames (r : Request) : List String :=
  (r.flat.filter fun t => t.kind = .custom).map (·.name)

theorem flatten_name {l : List (Child × Option String)} {names : List String} {flat : List Flat}
    (h : flatten l names = some flat) : ∀ t ∈ flat, t.name ≠ "" := by
  induction l generalizing names flat with
  | nil =>
    cases h
    exact fun t ht => absurd ht List.not_mem_nil
  | cons x l ih =>
    obtain ⟨c, ns⟩ := x
    rw [flatten] at h
    split at h
    · cases h
    · split at h
      · cases h
      · next hname =>
        obtain ⟨rest, hrest, rfl⟩ := Option.map_eq_some_iff.mp h
        rintro t (_ | ⟨_, ht⟩)
        · exact fun he => hname (Or.inl he)
        · exact ih hrest t ht

theorem Request.empty_not_custom (r : Request) : "" ∉ r.customNames := by
  intro h
  obtain ⟨t, ht, hn⟩ := List.mem_map.mp h
  exact flatten_name r.flattened t (List.mem_filter.mp ht).1 hn

/-! ## Responses -/

inductive Status where
  | inProgress
  | completed
  | incomplete
  | failed
  deriving DecidableEq

inductive Reason where
  | maxOutputTokens
  | contentFilter
  deriving DecidableEq

/-- A content part: a refusal or an output text. -/
structure Part where
  refusal : Bool
  text : String
  deriving DecidableEq

/-- A `function_call` or a `custom_tool_call`; `value` is its `arguments` or its `input`. -/
structure CallItem where
  custom : Bool
  status : Status
  callId : Option String
  name : Option String
  space : Option String
  value : Option String
  deriving DecidableEq

inductive Item where
  | message (status : Status) (content : List Part)
  | call (c : CallItem)
  deriving DecidableEq

structure UsageOut where
  inputTokens : ℤ
  cachedTokens : ℤ
  outputTokens : ℤ
  reasoningTokens : ℤ
  totalTokens : ℤ
  deriving DecidableEq

/-- The `error` of a response: the upstream's own, or `upstream_error` with a message. -/
inductive ResponseError where
  | payload (e : ErrorObject)
  | upstreamError (message : String)
  deriving DecidableEq

structure Response where
  status : Status
  error : Option ResponseError
  incompleteDetails : Option Reason
  model : Option String
  output : List Item
  usage : Option UsageOut
  parallelToolCalls : Bool
  deriving DecidableEq

/-- `_usage` of an object. -/
def usage (u : Usage) : UsageOut where
  inputTokens := u.promptTokens.getD 0
  cachedTokens := (u.cachedTokens.get?.getD none).getD 0
  outputTokens := u.completionTokens.getD 0
  reasoningTokens := (u.reasoningTokens.get?.getD none).getD 0
  totalTokens := u.totalTokens.getD (u.promptTokens.getD 0 + u.completionTokens.getD 0)

/-- `_response`. -/
def response (r : Request) : Response :=
  ⟨.inProgress, none, none, r.model, [], none, r.parallelToolCalls⟩

inductive Failure where
  | upstream (e : ErrorObject)
  | decode (e : DecodeError)
  | mixed
  | noFinish
  | noChoices
  | noFinishReason
  | invalidArguments (name : String)
  | malformed
  | notIterable
  | noAttribute

/-- `str(exc)`. -/
def Failure.message : Failure → String
  | .upstream e => e.str
  | .decode e => e.text
  | .mixed => "Upstream mixed text and refusal in the same message"
  | .noFinish => "Upstream stream ended before a finish reason"
  | .noChoices => "Upstream chat response has no choices"
  | .noFinishReason => "Upstream chat response has no finish reason"
  | .invalidArguments name => "Invalid arguments from custom tool " ++ name
  | .malformed => "Malformed upstream chat response"
  | .notIterable => "'NoneType'" ++ " object is not iterable"
  | .noAttribute => "'NoneType'" ++ " object has no attribute 'get'"

/-- A `TypeError` or an `AttributeError`: what is read from `None`. -/
def Failure.isTypeError : Failure → Bool
  | .notIterable => true
  | .noAttribute => true
  | _ => false

/-- The terminal status of a finish reason. -/
def finalStatus (finish : String) : Status :=
  if finish = "length" ∨ finish = "content_filter" then .incomplete else .completed

def incompleteDetails (finish : String) : Option Reason :=
  if finalStatus finish = .incomplete then
    some (if finish = "length" then .maxOutputTokens else .contentFilter)
  else none

/-- `_restore_namespace`: every tool is compared with the name the item has by then. -/
def restoreNamespace (r : Request) (item : CallItem) : CallItem :=
  r.flat.foldl (fun item t =>
    if some t.name = item.name ∧ t.space.isSome then
      { item with name := some t.child, space := t.space }
    else item) item

section

variable (customInput : String → Option String)

/-- The input in the arguments of a custom call; `json.loads` raises for `None` and for `""`. -/
def inputOf (arguments : Option String) : Option String :=
  (truthy arguments).bind customInput

/-- `_call_item` from the fields it reads. -/
def itemOf (custom : List String) (status : Status) (truncated : Bool)
    (callId name arguments : Option String) : Except Failure CallItem :=
  let item : CallItem := ⟨false, status, callId, name, none, arguments⟩
  match name with
  | none => .ok item
  | some n =>
    if n ∈ custom then
      match inputOf customInput arguments with
      | some value => .ok { item with custom := true, value := some value }
      | none =>
        -- a call cut off by the token limit keeps what was received
        if truncated then .ok { item with custom := true, status := .incomplete }
        else .error (.invalidArguments n)
    else .ok item

/-- `_call_item`. -/
def callItem (call : ToolCall) (custom : List String) (status : Status) (truncated : Bool) :
    Except Failure CallItem :=
  match call.function.get Function.empty with
  | none => .error .noAttribute
  | some function =>
    itemOf customInput custom status truncated (truthy call.id.get?) (function.name.get "")
      (function.arguments.get "")

/-- The calls of a complete message. -/
def callItems (r : Request) (status : Status) (truncated : Bool) :
    List ToolCall → Except Failure (List CallItem)
  | [] => .ok []
  | c :: cs =>
    match callItem customInput c r.customNames status truncated with
    | .error f => .error f
    | .ok item =>
      match callItems r status truncated cs with
      | .error f => .error f
      | .ok items => .ok (restoreNamespace r item :: items)

/-- `_from_chat_response` of a message, once the finish reason is known. -/
def fromMessage (r : Request) (finish : String) (usageField : Field Usage) (m : Message) :
    Except Failure Response :=
  let status := finalStatus finish
  let text := m.content.get?.toList.map fun t => Item.message status [⟨false, t⟩]
  let refusal := (truthy m.refusal.get?).toList.map fun t => Item.message status [⟨true, t⟩]
  match m.toolCalls.get [] with
  | none => .error .notIterable
  | some calls =>
    match callItems customInput r status (finish == "length") calls with
    | .error f => .error f
    | .ok items =>
      .ok { response r with
        status := status
        output := text ++ refusal ++ items.map .call
        usage := usageField.get?.map usage
        incompleteDetails := incompleteDetails finish }

/-- `_from_chat_response` of the first choice. -/
def fromChoice (r : Request) (usageField : Field Usage) (choice : Choice) :
    Except Failure Response :=
  match truthy choice.finishReason with
  | none => .error .noFinishReason
  | some finish =>
    match choice.message.get Message.empty with
    | none => .error .noAttribute
    | some m => fromMessage customInput r finish usageField m

/-- `_from_chat_response`. -/
def fromChatResponse' (r : Request) (p : Payload) : Except Failure Response :=
  match p.error with
  | some e => .ok { response r with status := .failed, error := some (.payload e) }
  | none =>
    match p.choices.get? with
    | none => .error .noChoices
    | some [] => .error .noChoices
    | some (choice :: _) => fromChoice customInput r p.usage choice

/-- `from_chat_response`: an attribute or type error is reported as a malformed response. -/
def fromChatResponse (r : Request) (p : Payload) : Except Failure Response :=
  match fromChatResponse' customInput r p with
  | .ok resp => .ok resp
  | .error f => .error (if f.isTypeError then .malformed else f)

end

end SparkDeck.Responses
