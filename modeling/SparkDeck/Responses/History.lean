import SparkDeck.Responses.Chat

/-!
# Input items as chat messages

Model of the input loop of `_to_chat_request` with `_content` (`sparkdeck/responses.py:40-64`,
`:96-118`), and of what a client does that keeps the full history: it sends the output items of a
response as input items.

* A `Codec` is `json.loads` and `json.dumps` on what the adapter uses them for, with the laws it
  relies on: a text that is written is read back, and `{"input": v}` has the input `v`.
* What the request checks beside its input is checked alike for the request and its replay, and is
  left out; `prior` is what is in `messages` when the loop starts.
* What is raised is its text; a `KeyError` is reported with the text of `to_chat_request`.
-/

namespace SparkDeck.Responses

structure Codec where
  Value : Type
  loads : String → Option Value
  dumps : Value → String
  /-- `{"input": v}` -/
  wrap : Option String → Value
  /-- `value["input"]` where that is a string. -/
  input : Value → Option String
  loads_dumps : ∀ v, loads (dumps v) = some v
  loads_empty : loads "" = none
  input_wrap : ∀ s, input (wrap (some s)) = some s

/-- What `_call_item` reads from the arguments of a custom call. -/
def Codec.customInput (codec : Codec) (arguments : String) : Option String :=
  (codec.loads arguments).bind codec.input

/-! ## Input items -/

inductive InputPart where
  /-- `input_text`, `output_text`, or `text`. -/
  | text (text : Option String)
  | inputImage (imageUrl detail : Option String)
  | refusal (refusal : Option String)
  | other (kind : String)

inductive InputContent where
  | text (s : String)
  | parts (l : List InputPart)
  | other

/-- A `function_call` or a `custom_tool_call`; `value` is its `arguments` or its `input`. -/
structure InputCall where
  custom : Bool
  callId : Field String
  name : Field String
  space : Field String
  value : Field String

inductive InputItem where
  | message (role : Option String) (content : Option InputContent)
  | call (c : InputCall)
  | output (callId : Field String) (output : Option InputContent)
  | other (kind : String)

/-! ## Chat messages -/

inductive ChatPart where
  | text (text : String)
  | imageUrl (url detail : String)

inductive ChatContent where
  | text (s : String)
  | parts (l : List ChatPart)

/-- A tool call of a chat message. -/
structure ChatCall where
  id : Option String
  name : Option String
  arguments : Option String

structure ChatMessage where
  role : String
  content : Option ChatContent
  toolCalls : List ChatCall
  toolCallId : Option String

/-! ## The input loop -/

/-- What `to_chat_request` says of a `KeyError`, a `TypeError` or an `AttributeError`. -/
def invalidStructure : String := "Invalid Responses request structure"

/-- One part of `_content`. -/
def contentPart (toolOutput : Bool) : InputPart → Except String ChatPart
  | .text (some t) | .refusal (some t) => .ok (.text t)
  | .text none | .refusal none => .error invalidStructure
  | .inputImage url detail =>
    if toolOutput then .error "Unsupported Responses content type: input_image"
    else
      match truthy url with
      | some url => .ok (.imageUrl url (detail.getD "auto"))
      | none => .error "input_image requires image_url; uploaded files are not supported"
  | .other kind => .error ("Unsupported Responses content type: " ++ kind)

/-- The text of a part. -/
def ChatPart.asText : ChatPart → String
  | .text t => t
  | .imageUrl _ _ => ""

/-- `_content`; no part of a tool output is an image. -/
def content (toolOutput : Bool) : InputContent → Except String ChatContent
  | .text s => .ok (.text s)
  | .other => .error "Message content must be text or a list of content parts"
  | .parts l =>
    (l.mapM (contentPart toolOutput)).map fun parts =>
      if toolOutput then .text ("\n".intercalate (parts.map ChatPart.asText)) else .parts parts

/-- The role of a chat message, of a role the loop accepts. -/
def chatRole (role : String) : Option String :=
  if role = "developer" then some "system"
  else if role = "user" ∨ role = "assistant" ∨ role = "system" then some role
  else none

/-- `f"{item['namespace']}__{item['name']}" if item.get("namespace") else item["name"]` -/
def sentName (space name : Option String) : Option String :=
  match truthy space with
  | some space => some (space ++ "__" ++ name.getD "None")
  | none => name

/-- `item[key]`; `none` for a `KeyError`. -/
def Field.item {α : Type} : Field α → Option (Option α)
  | .absent => none
  | .null => some none
  | .value a => some (some a)

/-- A call goes to the last message if that is the assistant's. -/
def attach (messages : List ChatMessage) (call : ChatCall) : List ChatMessage :=
  match messages.getLast? with
  | some last =>
    if last.role = "assistant" then
      messages.dropLast ++ [{ last with toolCalls := last.toolCalls ++ [call] }]
    else messages ++ [⟨"assistant", none, [call], none⟩]
  | none => [⟨"assistant", none, [call], none⟩]

section

variable (codec : Codec)

/-- The `arguments` of a call that is sent. -/
def sentArguments (c : InputCall) : Option String :=
  if c.custom then some (codec.dumps (codec.wrap (c.value.get ""))) else c.value.get ""

/-- One turn of the loop. -/
def inputItem (messages : List ChatMessage) : InputItem → Except String (List ChatMessage)
  | .message role body =>
    match chatRole (role.getD "user") with
    | none => .error ("Unsupported message role: " ++ role.getD "user")
    | some role =>
      (content false (body.getD (.text ""))).map fun c => messages ++ [⟨role, some c, [], none⟩]
  | .call c =>
    match c.callId.item, c.name.item with
    | some id, some name =>
      .ok (attach messages ⟨id, sentName c.space.get? name, sentArguments codec c⟩)
    | _, _ => .error invalidStructure
  | .output callId body =>
    match callId.item with
    | some id =>
      (content true (body.getD (.text ""))).map fun c => messages ++ [⟨"tool", some c, [], id⟩]
    | none => .error invalidStructure
  | .other kind => .error ("Unsupported Responses input item: " ++ kind)

/-- The loop over the input. -/
def chatMessages (prior : List ChatMessage) (items : List InputItem) :
    Except String (List ChatMessage) :=
  items.foldlM (inputItem codec) prior

end

/-! ## What a client sends back -/

def Field.ofOption {α : Type} : Option α → Field α
  | some a => .value a
  | none => .null

def Part.sent (p : Part) : InputPart :=
  if p.refusal then .refusal (some p.text) else .text (some p.text)

/-- An output item as an input item; `generated` is an id of `_id("call_")`. -/
def Item.sent (generated : String) : Item → InputItem
  | .message _ parts => .message (some "assistant") (some (.parts (parts.map Part.sent)))
  | .call c =>
    .call
      { custom := c.custom
        callId := .value (c.callId.getD generated)
        name := .ofOption c.name
        space := c.space.elim .absent .value
        value := .ofOption c.value }

end SparkDeck.Responses
