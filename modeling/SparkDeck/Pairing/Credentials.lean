import SparkDeck.Pairing.Nodes

/-!
# The credentials of an agent (`cluster.py`)

`AgentCredentials` keeps its values in memory and in `agent.json`. `_load_or_create` takes a file
over as it is only when four of its values are there (`Held`), and no call drops one of them; so
`Credentials` carries them, and a file that lacks one is like none: a restart makes new ones.

What is drawn or read from the clock is an argument, as is what `str` and `float` make of a value
that is no text.
-/

namespace SparkDeck.Pairing

open Backed

/-- What `_load_or_create` asks for. -/
def required : List String :=
  ["agent_token", "pairing_code", "cluster_join_code", "cluster_join_code_issued_at"]

def Held (data : Dict String Value) : Prop := ∀ key ∈ required, (field data key).truthy

variable {data : Dict String Value}

theorem Held.insert (h : Held data) (key : String) {v : Value} (hv : v.truthy) :
    Held (data.insert key v) := by
  intro k hk
  unfold field
  rw [Dict.get_insert]
  split
  · exact hv
  · exact h k hk

theorem Held.filter (h : Held data) {keys : List String} (hkeys : ∀ key ∈ required, key ∉ keys) :
    Held (data.filter fun key => key ∉ keys) := by
  intro k hk
  unfold field
  rw [Dict.get_filter, if_pos (hkeys k hk)]
  exact h k hk

structure Credentials where
  data : Dict String Value
  held : Held data

/-- A random text. -/
abbrev Secret := { s : String // s ≠ "" }

/-- `time.time()` -/
abbrev Instant := { t : ℚ // t ≠ 0 }

theorem truthy_text {s : String} (h : s ≠ "") : (Value.text s).truthy := decide_eq_true h

theorem truthy_number {x : ℚ} (h : x ≠ 0) : (Value.number x).truthy := decide_eq_true h

def Credentials.setText (c : Credentials) (key s : String) (h : s ≠ "") : Credentials :=
  ⟨c.data.insert key (.text s), c.held.insert key (truthy_text h)⟩

def Credentials.setTime (c : Credentials) (key : String) (t : Instant) : Credentials :=
  ⟨c.data.insert key (.number t.1), c.held.insert key (truthy_number t.2)⟩

def Credentials.pop (c : Credentials) (keys : List String) (h : ∀ key ∈ required, key ∉ keys) :
    Credentials :=
  ⟨c.data.filter fun key => key ∉ keys, c.held.filter h⟩

/-- `agent.json`, where a restart takes it over. -/
abbrev CredentialsFile := Option Credentials

def credentialsFile : Backing Credentials CredentialsFile where
  load file := file
  store c := some c
  load_store _ := rfl

abbrev Vault := Backed Credentials CredentialsFile

abbrev VaultProg := EStateM Failure Vault

/-- `str` and `float` of values that are no text and no number. -/
structure Builtins where
  repr : Value → String
  float : Value → Option ℚ

def Builtins.str (b : Builtins) : Value → String
  | .text s => s
  | v => b.repr v

def isAscii (s : String) : Bool := s.toList.all (·.toNat < 128)

/-- `secrets.compare_digest` of two texts. -/
def compareDigest (s t : String) : VaultProg Bool :=
  if isAscii s && isAscii t then return s = t else throw .type

/-- `accepts_token` -/
def acceptsToken (token : String) : VaultProg Bool := do
  if token = "" then return false
  let s ← get
  match field s.memory.data "agent_token" with
  | .text t => compareDigest token t
  | _ => throw .type

def owner (b : Builtins) (c : Credentials) : String :=
  b.str ((field c.data "paired_controller_id").orElse (.text ""))

def claimed (c : Credentials) (controllerId : String) (h : controllerId ≠ "") (now : Instant) :
    Credentials :=
  (c.setText "paired_controller_id" controllerId h).setTime "controller_claimed_at" now

/-- `authorize_controller` -/
def authorizeController (b : Builtins) (token controllerId : String) (now : Instant)
    (wrote : Bool) : VaultProg Bool := do
  let accepted ← acceptsToken token
  if !accepted then return false
  if h : strip controllerId = "" then return false
  else
    let s ← get
    if owner b s.memory ≠ "" then compareDigest (owner b s.memory) (strip controllerId)
    else
      commit credentialsFile (claimed s.memory (strip controllerId) h now) wrote .os
      return true

/-- What `_rotate_cluster_join_code` draws, and whether its write goes through. -/
structure Rotation where
  code : Secret
  issuedAt : Instant
  wrote : Bool

def rotated (r : Rotation) (c : Credentials) : Credentials :=
  (c.setText "cluster_join_code" r.code.1 r.code.2).setTime "cluster_join_code_issued_at" r.issuedAt

/-- `_rotate_cluster_join_code` -/
def rotateClusterJoinCode (r : Rotation) : VaultProg Unit := do
  assign (rotated r)
  save credentialsFile r.wrote .os

def issuedAt (b : Builtins) (c : Credentials) : Option ℚ :=
  b.float ((field c.data "cluster_join_code_issued_at").orElse (.number 0))

def clusterJoinCode (b : Builtins) (c : Credentials) : String :=
  b.str (field c.data "cluster_join_code")

/-- `current_cluster_join_code` -/
def currentClusterJoinCode (b : Builtins) (ttlSeconds now : ℚ) (r : Rotation) :
    VaultProg String := do
  let s ← get
  match issuedAt b s.memory with
  | none => throw (.value "could not convert to float")
  | some issued =>
    if ttlSeconds < now - issued then rotateClusterJoinCode r
    let s ← get
    return clusterJoinCode b s.memory

/-- `consume_cluster_join_code` -/
def consumeClusterJoinCode (b : Builtins) (joinCode : String) (now : ℚ) (r r' : Rotation) :
    VaultProg Unit := do
  if joinCode = "" then throw (.value "invalid or expired cluster join code")
  let code ← currentClusterJoinCode b 600 now r
  let same ← compareDigest joinCode code
  if !same then throw (.value "invalid or expired cluster join code")
  rotateClusterJoinCode r'

structure RevokeDraw where
  token : Secret
  pairingCode : Secret
  joinCode : Secret
  issuedAt : Instant
  rotatedAt : Instant

def revoked (r : RevokeDraw) (c : Credentials) : Credentials :=
  (((((c.setText "agent_token" r.token.1 r.token.2).setText
    "pairing_code" r.pairingCode.1 r.pairingCode.2).setText
    "cluster_join_code" r.joinCode.1 r.joinCode.2).setTime
    "cluster_join_code_issued_at" r.issuedAt).setTime "credentials_rotated_at" r.rotatedAt).pop
    ["paired_at", "paired_controller_id", "controller_claimed_at"] (by decide)

/-- `revoke_remote_access` -/
def revokeRemoteAccess (r : RevokeDraw) (wrote : Bool) : VaultProg Unit := do
  let s ← get
  commit credentialsFile (revoked r s.memory) wrote .os

structure PairDraw where
  token : Secret
  pairingCode : Secret
  pairedAt : Instant

def paired (p : PairDraw) (controllerId : String) (h : controllerId ≠ "") (c : Credentials) :
    Credentials :=
  (((c.setText "agent_token" p.token.1 p.token.2).setText
    "pairing_code" p.pairingCode.1 p.pairingCode.2).setText
    "paired_controller_id" controllerId h).setTime "paired_at" p.pairedAt

/-- `validate_pairing_code` -/
def validatePairingCode (b : Builtins) (pairingCode : Value) : VaultProg Unit := do
  if !pairingCode.truthy then throw (.value "invalid pairing code")
  let s ← get
  let same ← compareDigest (b.str pairingCode) (b.str (field s.memory.data "pairing_code"))
  if !same then throw (.value "invalid pairing code")

def agentProtocolVersion : ℚ := 2

/-- `pair` -/
def pair (b : Builtins) (pairingCode controllerId : Value) (p : PairDraw) (wrote : Bool) :
    VaultProg (Dict String Value) := do
  validatePairingCode b pairingCode
  if h : strip (b.str (controllerId.orElse (.text ""))) = "" then
    throw (.value "controller id is required")
  else
    let s ← get
    let value := paired p _ h s.memory
    commit credentialsFile value wrote .os
    -- `self.node_id`
    match value.data.get "node_id" with
    | none => throw .key
    | some nodeId =>
      return nodeOf [("node_id", nodeId), ("agent_token", .text p.token.1),
        ("protocol_version", .number agentProtocolVersion)]

end SparkDeck.Pairing
