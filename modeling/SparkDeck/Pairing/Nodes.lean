import Mathlib.Algebra.Order.Ring.Rat
import SparkDeck.EnvFile.Text
import SparkDeck.Lib.Backed
import SparkDeck.Lib.Dict

/-!
# The paired nodes (`cluster.py`)

`NodeRegistry` keeps its nodes in memory and in `nodes.json`. The calls below change the list, or a
node of it, and then save.

* A value of a JSON object is a `Value`; a list or an object in it is its text.
* `wrote` says whether `_atomic_json_write` goes through. It replaces the file or leaves it.
* What the network brings to `pair_remote` is its `Reply`; `urlparse` is a parameter.
-/

namespace SparkDeck.Pairing

open Backed
open EnvFile (isSpace)

inductive Value where
  | null
  | bool (b : Bool)
  | number (x : ℚ)
  | text (s : String)
  | nested (json : String) (empty : Bool)
deriving DecidableEq

/-- What raises. -/
inductive Failure where
  | value (message : String)
  | attribute
  | type
  | key
  | os
deriving DecidableEq

def Value.truthy : Value → Bool
  | null => false
  | bool b => b
  | number x => x ≠ 0
  | text s => s ≠ ""
  | nested _ empty => !empty

/-- A boolean is a number. -/
def Value.numeric : Value → Option ℚ
  | bool b => some (if b then 1 else 0)
  | number x => some x
  | _ => none

/-- `==` -/
def Value.same (v w : Value) : Bool :=
  match v.numeric, w.numeric with
  | some x, some y => x = y
  | _, _ => v = w

def Value.hashable : Value → Bool
  | nested _ _ => false
  | _ => true

/-- `value or other` -/
def Value.orElse (v w : Value) : Value := if v.truthy then v else w

/-- `s.strip()` -/
def strip (s : String) : String :=
  String.ofList (((s.toList.dropWhile isSpace).reverse.dropWhile isSpace).reverse)

/-- `.strip()`, which only a text has. -/
def Value.strip : Value → Option String
  | text s => some (Pairing.strip s)
  | _ => none

abbrev Node := Dict String Value

def nodeOf (fields : List (String × Value)) : Node :=
  fields.foldl (fun node x => node.insert x.1 x.2) Dict.empty

def localNodeId : String := "local"

/-! ## `normalize_agent_url` -/

structure ParsedUrl where
  scheme : String
  hostname : Option String
  username : Option String
  password : Option String
  query : String
  fragment : String
deriving DecidableEq

/-- `bool()` of what may be missing. -/
def given (s : Option String) : Bool := s.getD "" ≠ ""

/-- `rstrip("/")` -/
def dropSlashes (s : String) : String :=
  String.ofList ((s.toList.reverse.dropWhile (· = '/')).reverse)

/-- `urlparse`, with the text of what it raises. -/
abbrev Urlparse := String → Except String ParsedUrl

def normalizeAgentUrl (urlparse : Urlparse) (value : Value) : Except Failure String :=
  match (value.orElse (.text "")).strip with
  | none => .error .attribute
  | some stripped =>
    let url := dropSlashes stripped
    match urlparse url with
    | .error message => .error (.value message)
    | .ok parsed =>
      if (parsed.scheme ≠ "http" ∧ parsed.scheme ≠ "https") ∨ !given parsed.hostname then
        .error (.value "agent URL must be an http(s) URL with a hostname")
      else if given parsed.username ∨ given parsed.password ∨ parsed.query ≠ "" ∨
          parsed.fragment ≠ "" then
        .error (.value "agent URL cannot contain credentials, query, or fragment")
      else .ok url

/-! ## The registry -/

/-- `nodes.json`: missing or unreadable, or a list. -/
abbrev NodesFile := Option (List Node)

/-- `_load` and `_save` -/
def nodesFile : Backing (List Node) NodesFile where
  load file := some (file.getD [])
  store nodes := some nodes
  load_store _ := rfl

abbrev Registry := Backed (List Node) NodesFile

abbrev RegistryProg := EStateM Failure Registry

def hasId (node : Node) (nodeId : Value) : Bool := ((node.get "id").getD .null).same nodeId

/-- `next((n for n in self.nodes if n.get("id") == node_id), None)` -/
def find (nodes : List Node) (nodeId : String) : Option Node :=
  nodes.find? fun node => hasId node (.text nodeId)

/-- A change of the node that `get` found, where it is. -/
def edit (nodeId : String) (f : Node → Node) : List Node → List Node
  | [] => []
  | node :: nodes =>
    if hasId node (.text nodeId) then f node :: nodes else node :: edit nodeId f nodes

def drop (nodeId : Value) (nodes : List Node) : List Node :=
  nodes.filter fun node => !hasId node nodeId

/-- `public_config` -/
def publicConfig (node : Node) : Node :=
  node.filter fun key => key ∉ ["agent_token", "forward_token", "forward_token_hash"]

/-- The node that an edit needs: `get`, without this node itself. -/
def remoteNode (nodeId : String) : RegistryProg Node := do
  let s ← get
  match find s.memory nodeId with
  | some node =>
    if nodeId = localNodeId then throw (.value "remote node not found") else return node
  | none => throw (.value "remote node not found")

/-- `self._status_cache.pop(node_id, None)`; an empty cache does not look at the key. -/
def popStatus (nodeId : Value) (cacheHeld : Bool) : RegistryProg Unit :=
  if cacheHeld && !nodeId.hashable then throw .type else return ()

def saveNodes (wrote : Bool) : RegistryProg Unit := save nodesFile wrote .os

def editable : List String :=
  ["name", "fabric_ip", "fabric_interface", "enabled", "hidden_from_dashboard"]

/-- The loop over the keys. -/
def assignKeys (changes : Dict String Value) (node : Node) : List String → Node
  | [] => node
  | key :: keys =>
    match changes.get key with
    | some value => assignKeys changes (node.insert key value) keys
    | none => assignKeys changes node keys

def hiddenInvalid (changes : Dict String Value) : Bool :=
  match changes.get "hidden_from_dashboard" with
  | some (.bool _) => false
  | some _ => true
  | none => false

/-- The end of `update`. -/
def saveUpdated (nodeId : String) (node : Node) (wrote : Bool) : RegistryProg Node := do
  saveNodes wrote
  popStatus (.text nodeId) true
  return publicConfig node

/-- `update` -/
def update (urlparse : Urlparse) (nodeId : String) (changes : Dict String Value)
    (wrote : Bool) : RegistryProg Node := do
  let node ← remoteNode nodeId
  if hiddenInvalid changes then throw (.value "hidden_from_dashboard must be a boolean")
  let node := assignKeys changes node editable
  assign (edit nodeId fun _ => node)
  match changes.get "agent_url" with
  | some value =>
    match normalizeAgentUrl urlparse value with
    | .error e => throw e
    | .ok url =>
      let node := node.insert "agent_url" (.text url)
      assign (edit nodeId fun _ => node)
      saveUpdated nodeId node wrote
  | none => saveUpdated nodeId node wrote

/-- `remove` -/
def remove (nodeId : String) (wrote : Bool) : RegistryProg Bool := do
  let before ← get
  assign (drop (.text nodeId))
  let s ← get
  if s.memory.length = before.memory.length then return false
  saveNodes wrote
  popStatus (.text nodeId) true
  return true

/-- `mark_usage_reconciled` -/
def markUsageReconciled (nodeId : String) (wrote : Bool) : RegistryProg Unit := do
  let node ← remoteNode nodeId
  if node.get "usage_reconciled" = some (.bool true) then return ()
  assign (edit nodeId fun _ => node.insert "usage_reconciled" (.bool true))
  saveNodes wrote

/-- `set_forward_token`; `digest` is the hash of the token, none where it cannot be encoded. -/
def setForwardToken (nodeId : String) (digest : Option String) (wrote : Bool) :
    RegistryProg Unit := do
  let node ← remoteNode nodeId
  let node := node.filter fun key => key ≠ "forward_token"
  assign (edit nodeId fun _ => node)
  match digest with
  | none => throw (.value "surrogates not allowed")
  | some digest =>
    assign (edit nodeId fun _ => node.insert "forward_token_hash" (.text digest))
    saveNodes wrote

/-- The answer of the agent: none that can be read, or an object. -/
inductive Reply where
  | failed (e : Failure)
  | paired (object : Dict String Value)

structure PairArgs where
  agentUrl : Value
  name : Value
  fabricIp : Value
  fabricInterface : Value

def field (object : Dict String Value) (key : String) : Value := (object.get key).getD .null

/-- `(value or "").strip() or None` -/
def stripOrNull (v : Value) : Option Value :=
  (v.orElse (.text "")).strip.map fun s => if s = "" then .null else .text s

/-- The node that `pair_remote` adds, unless what it is made of raises. -/
def pairedNode (args : PairArgs) (url : String) (object : Dict String Value) (now : ℚ) :
    Option Node := do
  let name ← ((args.name.orElse (field object "name")).orElse (.text "Remote node")).strip
  let fabricIp ← stripOrNull args.fabricIp
  let fabricInterface ← stripOrNull args.fabricInterface
  return nodeOf [("id", field object "node_id"), ("name", .text name), ("agent_url", .text url),
    ("agent_token", field object "agent_token"), ("fabric_ip", fabricIp),
    ("fabric_interface", fabricInterface), ("enabled", .bool true),
    ("hidden_from_dashboard", .bool false), ("protocol_version", field object "protocol_version"),
    ("paired_at", .number now), ("usage_reconciled", .bool false)]

/-- `pair_remote` -/
def pairRemote (urlparse : Urlparse) (args : PairArgs) (reply : Reply) (now : ℚ)
    (cacheHeld wrote : Bool) : RegistryProg Node := do
  match normalizeAgentUrl urlparse args.agentUrl with
  | .error e => throw e
  | .ok url =>
    match reply with
    | .failed e => throw e
    | .paired object =>
      if !(field object "agent_token").truthy || !(field object "node_id").truthy then
        throw (.value "node agent returned an invalid pairing response")
      match pairedNode args url object now with
      | none => throw .attribute
      | some node =>
        assign fun nodes => drop (field object "node_id") nodes ++ [node]
        saveNodes wrote
        popStatus (field object "node_id") cacheHeld
        return publicConfig node

end SparkDeck.Pairing
