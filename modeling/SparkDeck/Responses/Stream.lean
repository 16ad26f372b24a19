import SparkDeck.Lib.Gather
import SparkDeck.Responses.Chat

/-!
# Chat streams as response events

Model of `_sse_payloads` and `stream_chat_response` of `sparkdeck/responses.py`.

* The upstream is a list of pieces, bytes or text. The incremental UTF-8 decoder is a parameter, as
  is `loads`, what `json.loads` reads from the text of a payload; either may raise.
* `State.body` is the loop over the payloads and `State.publish` the loop over the assembled calls.
  What a step raises is in the second component, next to the state it leaves behind.
* An event is its payload without the sequence number, which is its position, and without the ids
  of items. A message is the only item while the stream runs, so its index is 0.
* The chunk's other choices (`index` not 0) and the closing of the upstream are the source's, and
  the latter is left out.
-/

namespace SparkDeck.Responses

open Gather

/-! ## The chunks of a stream -/

structure CallDelta extends ToolCall where
  index : Option ℤ
  deriving DecidableEq

structure Delta where
  content : Field String
  refusal : Field String
  toolCalls : Field (List CallDelta)
  deriving DecidableEq

structure StreamChoice where
  index : Option ℤ
  finishReason : Option String
  delta : Field Delta
  deriving DecidableEq

structure Chunk where
  error : Option ErrorObject
  usage : Field Usage
  choices : Field (List StreamChoice)

/-- What the text of a payload stands for: the end marker, a chunk, or what raises. -/
inductive Datum where
  | done
  | broken (e : DecodeError)
  | chunk (c : Chunk)

def Delta.empty : Delta := ⟨.absent, .absent, .absent⟩

def CallDelta.omitted (c : CallDelta) : CallDelta := ⟨c.toToolCall.omitted, c.index⟩

def Delta.omitted (d : Delta) : Delta :=
  ⟨d.content.omitted fun s => s, d.refusal.omitted fun s => s,
    d.toolCalls.omitted (List.map CallDelta.omitted)⟩

def StreamChoice.omitted (c : StreamChoice) : StreamChoice :=
  { c with delta := c.delta.omitted Delta.omitted }

def Chunk.omitted (c : Chunk) : Chunk :=
  ⟨c.error, c.usage.omitted fun u => u, c.choices.omitted (List.map StreamChoice.omitted)⟩

/-- The payload with its `null` fields left out. -/
def Datum.omitted : Datum → Datum
  | done => done
  | broken e => broken e
  | chunk c => chunk c.omitted

/-! ## The payloads of a stream -/

inductive Piece where
  | bytes (b : List UInt8)
  | text (s : List Char)

/-- The incremental decoder. -/
structure Decoder where
  σ : Type
  start : σ
  decode : σ → List UInt8 → Except DecodeError (σ × List Char)
  final : σ → Except DecodeError (List Char)

/-- `buffer.replace("\r\n", "\n")`. -/
def newlines : List Char → List Char
  | '\r' :: '\n' :: rest => '\n' :: newlines rest
  | c :: rest => c :: newlines rest
  | [] => []

/-- `while "\n\n" in buffer`: the frames that are complete, and the rest. -/
def frames : List Char → List (List Char) × List Char
  | '\n' :: '\n' :: rest => ([] :: (frames rest).1, (frames rest).2)
  | c :: rest =>
    match frames rest with
    | (f :: fs, last) => ((c :: f) :: fs, last)
    | ([], last) => ([], c :: last)
  | [] => ([], [])

/-- `str.isspace` of one character. -/
def isSpace (c : Char) : Bool :=
  (9 ≤ c.toNat && c.toNat ≤ 13) || (28 ≤ c.toNat && c.toNat ≤ 32) || c.toNat = 0x85 ||
    c.toNat = 0xa0 || c.toNat = 0x1680 || (0x2000 ≤ c.toNat && c.toNat ≤ 0x200a) ||
    c.toNat = 0x2028 || c.toNat = 0x2029 || c.toNat = 0x202f || c.toNat = 0x205f ||
    c.toNat = 0x3000

/-- A line boundary of `str.splitlines`. -/
def isBoundary (c : Char) : Bool :=
  (10 ≤ c.toNat && c.toNat ≤ 13) || (28 ≤ c.toNat && c.toNat ≤ 30) || c.toNat = 0x85 ||
    c.toNat = 0x2028 || c.toNat = 0x2029

/-- The lines between boundaries. A last line that is empty, and the one that `splitlines` does not
see between `\r` and `\n`, start with no `data:`. -/
def linesAt (boundary : Char → Bool) : List Char → List (List Char)
  | [] => [[]]
  | c :: rest =>
    if boundary c then [] :: linesAt boundary rest
    else
      match linesAt boundary rest with
      | l :: ls => (c :: l) :: ls
      | [] => [[c]]

/-- The text after `data:` of the lines that have it, joined by newlines. -/
def dataOf (lines : List (List Char)) : List Char :=
  List.intercalate ['\n'] ((lines.filter (['d', 'a', 't', 'a', ':'].isPrefixOf ·)).map
    fun line => (line.drop 5).dropWhile isSpace)

def payloadOf (lines : List (List Char)) : List (List Char) :=
  if dataOf lines = [] then [] else [dataOf lines]

/-- `_sse_payloads` from a buffer on: the payloads, and what is raised after them. -/
def ssePayloads (dec : Decoder) : dec.σ → List Char → List Piece →
    List (List Char) × Option DecodeError
  | s, buffer, [] =>
    match dec.final s with
    | .error e => ([], some e)
    | .ok t =>
      if (buffer ++ t).all isSpace then ([], none)
      else (payloadOf (linesAt isBoundary (buffer ++ t)), none)
  | s, buffer, piece :: pieces =>
    let decoded : Except DecodeError (dec.σ × List Char) :=
      match piece with
      | .bytes b => dec.decode s b
      | .text t => .ok (s, t)
    match decoded with
    | .error e => ([], some e)
    | .ok (s, t) =>
      let (fs, rest) := frames (newlines (buffer ++ t))
      let (payloads, raised) := ssePayloads dec s rest pieces
      (fs.flatMap (fun f => payloadOf (linesAt (· = '\n') f)) ++ payloads, raised)

/-- The upstream as its loop reads it: the payloads with what they stand for. -/
def readStream (dec : Decoder) (loads : List Char → Datum) (upstream : List Piece) : List Datum :=
  let (payloads, raised) := ssePayloads dec dec.start [] upstream
  payloads.map (fun data => if data = "[DONE]".toList then .done else loads data) ++
    raised.toList.map .broken

/-! ## The events -/

inductive Event where
  | created (r : Response)
  | inProgress (r : Response)
  | itemAdded (outputIndex : ℕ) (item : Item)
  | partAdded (outputIndex : ℕ) (part : Part)
  | textDelta (outputIndex : ℕ) (refusal : Bool) (delta : String)
  | callDelta (outputIndex : ℕ) (custom : Bool) (delta : Option String)
  | callDone (outputIndex : ℕ) (custom : Bool) (value : Option String)
  | textDone (outputIndex : ℕ) (part : Part)
  | partDone (outputIndex : ℕ) (part : Part)
  | itemDone (outputIndex : ℕ) (item : Item)
  | terminal (r : Response)
  deriving DecidableEq

/-- The accumulated strings of a call. -/
structure CallState where
  id : String
  name : String
  arguments : String

def CallState.empty : CallState := ⟨"", "", ""⟩

/-- What one delta adds to its call; `null` and absent fields add nothing. -/
def CallState.add (s : CallState) (d : CallDelta) : CallState :=
  let function := d.function.get?.getD Function.empty
  ⟨s.id ++ orEmpty d.id, s.name ++ orEmpty function.name,
    s.arguments ++ orEmpty function.arguments⟩

/-- The state as `_call_item` gets it. -/
def CallState.toCall (s : CallState) : ToolCall :=
  ⟨.value s.id, .value ⟨.value s.name, .value s.arguments⟩⟩

/-- The variables of the loop. `response["output"]` is the message, where there is one. -/
structure State where
  message : Option Part
  calls : List (ℤ × CallState)
  finish : Option String
  usage : Option UsageOut
  events : List Event

/-- The state, and what was raised. -/
abbrev Result := State × Option Failure

/-- What follows, unless something was raised. -/
def Result.andThen (res : Result) (next : State → Result) : Result :=
  match res with
  | (s, some f) => (s, some f)
  | (s, none) => next s

namespace State

def init (r : Request) : State :=
  ⟨none, [], none, none, [.created (response r), .inProgress (response r)]⟩

/-- The items while the stream runs. -/
def output (s : State) : List Item := s.message.toList.map fun p => .message .inProgress [p]

/-- A nonempty text or refusal. -/
def text (s : State) (refusal : Bool) (t : String) : Result :=
  match s.message with
  | none =>
    ({ s with
        message := some ⟨refusal, t⟩
        events := s.events ++ [.itemAdded 0 (.message .inProgress []), .partAdded 0 ⟨refusal, ""⟩,
          .textDelta 0 refusal t] }, none)
  | some part =>
    if refusal ≠ part.refusal then (s, some .mixed)
    else
      ({ s with
          message := some ⟨refusal, part.text ++ t⟩
          events := s.events ++ [.textDelta 0 refusal t] }, none)

def callDelta (s : State) (d : CallDelta) : State :=
  { s with calls := push CallState.empty CallState.add s.calls (d.index.getD 0) d }

/-- The `content`, else the `refusal`. -/
def deltaText (d : Delta) : String :=
  if orEmpty d.content ≠ "" then orEmpty d.content else orEmpty d.refusal

def deltaRefusal (d : Delta) : Bool := orEmpty d.refusal ≠ ""

/-- `if text`: the part of a delta that the message gets. -/
def say (s : State) (d : Delta) : Result :=
  if deltaText d ≠ "" then s.text (deltaRefusal d) (deltaText d) else (s, none)

/-- The text of a delta, then its calls. -/
def delta (s : State) (d : Delta) : Result :=
  (s.say d).andThen fun s =>
    match d.toolCalls.get [] with
    | none => (s, some .notIterable)
    | some deltas => (deltas.foldl callDelta s, none)

/-- A finish reason that is true replaces the one before. -/
def note (s : State) (finish : Option String) : State :=
  { s with finish := (truthy finish).or s.finish }

/-- One choice; only the first of the completion is translated. -/
def choice (s : State) (c : StreamChoice) : Result :=
  if c.index.getD 0 ≠ 0 then (s, none)
  else
    match c.delta.get Delta.empty with
    | none => (s.note c.finishReason, some .noAttribute)
    | some d => (s.note c.finishReason).delta d

def choices (s : State) : List StreamChoice → Result
  | [] => (s, none)
  | c :: cs => (s.choice c).andThen fun s => s.choices cs

/-- `if chunk.get("usage")`: the last usage that is true is kept. -/
def meter (s : State) (u : Field Usage) : State :=
  { s with usage := ((u.get?.filter Usage.isTrue).map Responses.usage).or s.usage }

def chunk (s : State) (c : Chunk) : Result :=
  match c.error with
  | some e => (s, some (.upstream e))
  | none =>
    match c.choices.get [] with
    | none => (s.meter c.usage, some .notIterable)
    | some cs => (s.meter c.usage).choices cs

/-- The loop over the payloads. -/
def body (s : State) : List Datum → Result
  | [] => (s, none)
  | .done :: _ => (s, none)
  | .broken e :: _ => (s, some (.decode e))
  | .chunk c :: rest => (s.chunk c).andThen fun s => s.body rest

end State

/-! ## The end of a stream -/

def Item.withStatus (status : Status) : Item → Item
  | .message _ content => .message status content
  | .call c => .call { c with status := status }

/-- The events that close an item. -/
def closing (index : ℕ) : Item → List Event
  | .message status content =>
    (content.head?.toList.flatMap fun p => [.textDone index p, .partDone index p]) ++
      [.itemDone index (.message status content)]
  | .call c => [.itemDone index (.call c)]

section

variable (customInput : String → Option String)

/-- The loop over the assembled calls: the items and events so far, and what is raised. -/
def publish (r : Request) (truncated : Bool) :
    List CallState → List Item → List Event → (List Item × List Event) × Option Failure
  | [], output, events => ((output, events), none)
  | c :: cs, output, events =>
    match callItem customInput c.toCall r.customNames .inProgress truncated with
    | .error f => ((output, events), some f)
    | .ok called =>
      let item := restoreNamespace r called
      let n := output.length
      publish r truncated cs (output ++ [.call item])
        (events ++ [.itemAdded n (.call { item with value := some "" }),
          .callDelta n item.custom item.value, .callDone n item.custom item.value])

def failed (r : Request) (s : State) (output : List Item) (f : Failure) : Response :=
  { response r with
    status := .failed
    error := some (.upstreamError f.message)
    output := output
    usage := s.usage }

/-- What follows the loop: the events, and the response of the terminal event. -/
def conclude (r : Request) (s : State) : List Event × Response :=
  match s.finish with
  | none => (s.events, failed r s s.output .noFinish)
  | some finish =>
    match publish customInput r (finish == "length") (s.calls.map Prod.snd) s.output s.events with
    | ((output, events), some f) => (events, failed r s output f)
    | ((output, events), none) =>
      let items := output.map (Item.withStatus (finalStatus finish))
      (events ++ items.zipIdx.flatMap (fun x => closing x.2 x.1),
        { response r with
          status := finalStatus finish
          output := items
          usage := s.usage
          incompleteDetails := incompleteDetails finish })

/-- The events before the terminal one, and its response. -/
def translate (r : Request) (data : List Datum) : List Event × Response :=
  match (State.init r).body data with
  | (s, some f) => (s.events, failed r s s.output f)
  | (s, none) => conclude customInput r s

/-- `stream_chat_response`. -/
def streamChatResponse (dec : Decoder) (loads : List Char → Datum) (r : Request)
    (upstream : List Piece) : List Event :=
  let (events, last) := translate customInput r (readStream dec loads upstream)
  events ++ [.terminal last]

end

end SparkDeck.Responses
