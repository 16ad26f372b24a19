import Mathlib.Tactic.NormNum
import SparkDeck.Lib.JsonText

/-!
# The keys of a conversation

Model of `PrefixAffinity.keys` (`sparkdeck/prefix_affinity.py`): one pair of a digest and a strength
for every leading part of the messages of a chat request.

* `sha256` stands for SHA-256 with its hexadecimal form, over the bytes fed to it so far; `update`
  feeds more. `tooDeep` says of a value that `json.dumps` runs into the recursion limit.
* `none` is an exception that `keys` catches or an early `return []`: both give no keys.

Results:
* `keys_spec`: where there are keys there is one for every message, and `Keyed` says what the one at
  a position is made from.
* `digest_inj`: two digests are equal only at one position, after JSON-equal contexts and messages.
  The bytes that are hashed can be read back: the context ends where it ends, and a message is as
  long as the eight bytes before it say.
* `digest_of_extends`: a body that extends another has its digests.
-/

namespace SparkDeck.Affinity

open JsonText

abbrev Fields := List (Text × Json)

/-- `fields.get(name)`. -/
def Fields.get (fields : Fields) (name : String) : Option Json :=
  (fields.find? fun x => x.1 = ascii name).map Prod.snd

/-- The fields that can change the rendered prefix. -/
def contextNames : List String :=
  ["tools", "tool_choice", "functions", "function_call", "chat_template", "chat_template_kwargs",
    "add_generation_prompt", "continue_final_message", "documents", "cache_salt",
    "response_format"]

def context (body : Fields) : Fields :=
  contextNames.filterMap fun name => (body.get name).map fun value => (ascii name, value)

/-- `message.get("role") in names`: an array or an object has no hash. -/
def roleIn (names : List String) (message : Fields) : Option Bool :=
  match message.get "role" with
  | some (.array _) => none
  | some (.object _) => none
  | some (.text role) => some (names.any fun name => role = ascii name)
  | _ => some false

def isAssistant (message : Fields) : Bool :=
  match message.get "role" with
  | some (.text role) => role = ascii "assistant"
  | _ => false

def talkRoles : List String := ["user", "tool", "function"]

/-- A user, tool or function message. -/
def talks (message : Fields) : Bool := roleIn talkRoles message = some true

def asDict : Json → Option Fields
  | .object fields => some fields
  | _ => none

/-- `body.get("messages")` where it is a list of objects. -/
def messagesOf (body : Fields) : Option (List Fields) :=
  match body.get "messages" with
  | some (.array items) => items.mapM asDict
  | _ => none

/-- `len(encoded).to_bytes(8, "big")`. -/
def lengthBytes (n : ℕ) : List UInt8 :=
  [7, 6, 5, 4, 3, 2, 1, 0].map fun i => UInt8.ofNat (n / 256 ^ i)

def maxBytes : ℕ := 2 * 1024 * 1024

variable {δ : Type} (sha256 : List UInt8 → δ) (tooDeep : Json → Bool)

/-- `json.dumps(...).encode()`. -/
def encoded (fields : Fields) : Option (List UInt8) :=
  if tooDeep (.object fields) then none else encode (Json.object fields).dumps

/-- The loop over the messages; `stream` is what the digest has been fed. -/
def keysLoop (following : Bool) :
    List Fields → List UInt8 → ℕ → Bool → Option (List (δ × ℕ))
  | [], _, _, _ => some []
  | message :: rest, stream, size, conversation => do
    let bytes ← encoded tooDeep message
    if maxBytes < size + bytes.length then none
    else
      let talk ← roleIn talkRoles message
      let keys ← keysLoop following rest (stream ++ (lengthBytes bytes.length ++ bytes))
        (size + bytes.length) (conversation || talk)
      some ((sha256 (stream ++ (lengthBytes bytes.length ++ bytes)),
        if following && (conversation || talk) then size + bytes.length else 0) :: keys)

/-- The body of the `try`. -/
def keysOf (body : Fields) (messages : List Fields) : Option (List (δ × ℕ)) := do
  let bytes ← encoded tooDeep (context body)
  let keys ← keysLoop sha256 tooDeep (messages.any isAssistant) messages bytes bytes.length false
  let last ← messages.getLast?
  let closing ← roleIn ["system", "developer"] last
  if closing then none else some keys

def keys (body : Fields) (endpoint : String) : List (δ × ℕ) :=
  if endpoint = "chat/completions" then
    match messagesOf body with
    | some messages =>
      if messages = [] ∨ 512 < messages.length then []
      else (keysOf sha256 tooDeep body messages).getD []
    | none => []
  else []

/-! ## What a digest is made from -/

/-- A message as it is fed: its length, and its text. -/
def frame (bytes : List UInt8) : List UInt8 := lengthBytes bytes.length ++ bytes

/-- What is fed up to the end of `messages`. -/
def fed (start : List UInt8) (texts : List (List UInt8)) : List UInt8 :=
  start ++ texts.flatMap frame

def total (texts : List (List UInt8)) : ℕ := (texts.map List.length).sum

/-- The pair after `messages`, in a loop that starts with `stream`, `size` and `conversation`. -/
structure Keyed (following : Bool) (stream : List UInt8) (size : ℕ) (conversation : Bool)
    (messages : List Fields) (key : δ × ℕ) (texts : List (List UInt8)) : Prop where
  texts_eq : List.Forall₂ (fun m t => encoded tooDeep m = some t) messages texts
  digest_eq : key.1 = sha256 (fed stream texts)
  strength_eq : key.2 =
    if following && (conversation || messages.any talks) then size + total texts else 0
  size_le : size + total texts ≤ maxBytes

variable {sha256 tooDeep}

theorem talks_of_roleIn {message : Fields} {talk : Bool} (h : roleIn talkRoles message = some talk) :
    talks message = talk := by
  unfold talks
  rw [h]
  cases talk <;> rfl

variable {ks : List (δ × ℕ)} {stream : List UInt8} {conversation : Bool} {following : Bool}

variable {size : ℕ}

/-- One round of the loop. -/
theorem keysLoop_cons {message : Fields} {rest : List Fields}
    (h : keysLoop sha256 tooDeep following (message :: rest) stream size conversation = some ks) :
    ∃ bytes tail, encoded tooDeep message = some bytes ∧ size + bytes.length ≤ maxBytes ∧
      keysLoop sha256 tooDeep following rest (stream ++ frame bytes) (size + bytes.length)
        (conversation || talks message) = some tail ∧
      ks = (sha256 (stream ++ frame bytes),
        if following && (conversation || talks message) then size + bytes.length else 0) ::
          tail := by
  unfold keysLoop at h
  cases hb : encoded tooDeep message with
  | none =>
    rw [hb] at h
    cases h
  | some bytes =>
    rw [hb] at h
    simp only [Option.bind_eq_bind, Option.bind_some] at h
    obtain ⟨hle, h⟩ := Option.ite_none_left_eq_some.mp h
    cases ht : roleIn talkRoles message with
    | none =>
      rw [ht] at h
      cases h
    | some talk =>
      rw [ht, Option.bind_some] at h
      obtain ⟨tail, hk, hks⟩ := Option.bind_eq_some_iff.mp h
      rw [talks_of_roleIn ht]
      exact ⟨bytes, tail, rfl, Nat.le_of_not_lt hle, hk, (Option.some.inj hks).symm⟩

variable {messages : List Fields}

theorem keysLoop_spec
    (h : keysLoop sha256 tooDeep following messages stream size conversation = some ks) :
    ks.length = messages.length ∧ ∀ i key, ks[i]? = some key →
      ∃ texts, Keyed sha256 tooDeep following stream size conversation (messages.take (i + 1)) key
        texts := by
  induction messages generalizing stream size conversation ks with
  | nil =>
    cases h
    exact ⟨rfl, fun i key hi => by simp at hi⟩
  | cons message rest ih =>
    obtain ⟨bytes, tail, hb, hle, ht, rfl⟩ := keysLoop_cons h
    obtain ⟨hlen, hrest⟩ := ih ht
    refine ⟨congrArg Nat.succ hlen, fun i key hi => ?_⟩
    cases i with
    | zero =>
      cases hi
      refine ⟨[bytes], ⟨?_, ?_, ?_, ?_⟩⟩
      · exact List.Forall₂.cons hb List.Forall₂.nil
      · simp [fed]
      · simp [total]
      · simpa [total] using hle
    | succ i =>
      obtain ⟨texts, hk⟩ := hrest i key hi
      refine ⟨bytes :: texts, ⟨?_, ?_, ?_, ?_⟩⟩
      · exact List.Forall₂.cons hb hk.texts_eq
      · rw [hk.digest_eq]
        simp [fed]
      · rw [hk.strength_eq, List.take_succ_cons, List.any_cons, Bool.or_assoc]
        simp [total, Nat.add_assoc]
      · have hsize := hk.size_le
        rw [Nat.add_assoc] at hsize
        simpa [total] using hsize

variable {endpoint : String} {body : Fields}

/-- Where there are keys, the body has messages and there is one key for each. -/
theorem keys_some (h : keys sha256 tooDeep body endpoint ≠ []) :
    ∃ messages bytes, messagesOf body = some messages ∧ messages ≠ [] ∧
      encoded tooDeep (context body) = some bytes ∧
      keysLoop sha256 tooDeep (messages.any isAssistant) messages bytes bytes.length false =
        some (keys sha256 tooDeep body endpoint) := by
  unfold keys at h ⊢
  split at h
  case isFalse => exact absurd rfl h
  case isTrue hend =>
    rw [if_pos hend]
    cases hm : messagesOf body with
    | none =>
      rw [hm] at h
      exact absurd rfl h
    | some messages =>
      rw [hm] at h
      dsimp only at h ⊢
      split at h
      case isTrue => exact absurd rfl h
      case isFalse hbound =>
        rw [if_neg hbound]
        cases hk : keysOf sha256 tooDeep body messages with
        | none =>
          rw [hk] at h
          exact absurd rfl h
        | some ks =>
          obtain ⟨bytes, hb, hk⟩ := Option.bind_eq_some_iff.mp hk
          obtain ⟨all, ha, hk⟩ := Option.bind_eq_some_iff.mp hk
          obtain ⟨last, -, hk⟩ := Option.bind_eq_some_iff.mp hk
          obtain ⟨closing, -, hk⟩ := Option.bind_eq_some_iff.mp hk
          obtain ⟨_, hk⟩ := Option.ite_none_left_eq_some.mp hk
          cases hk
          exact ⟨messages, bytes, rfl, fun hnil => hbound (Or.inl hnil), hb, ha⟩

theorem keys_length (h : keys sha256 tooDeep body endpoint ≠ [])
    (hm : messagesOf body = some messages) :
    (keys sha256 tooDeep body endpoint).length = messages.length := by
  obtain ⟨found, bytes, hf, -, -, hk⟩ := keys_some h
  cases hm.symm.trans hf
  exact (keysLoop_spec hk).1

theorem keys_spec {i : ℕ} {key : δ × ℕ} (h : (keys sha256 tooDeep body endpoint)[i]? = some key) :
    ∃ messages bytes texts, messagesOf body = some messages ∧ i < messages.length ∧
      encoded tooDeep (context body) = some bytes ∧
      Keyed sha256 tooDeep (messages.any isAssistant) bytes bytes.length false
        (messages.take (i + 1)) key texts := by
  have hne : keys sha256 tooDeep body endpoint ≠ [] := by
    intro hnil
    rw [hnil] at h
    cases h
  obtain ⟨messages, bytes, hm, -, hb, hk⟩ := keys_some hne
  obtain ⟨hlen, hall⟩ := keysLoop_spec hk
  obtain ⟨texts, ht⟩ := hall i key h
  have hi : i < (keys sha256 tooDeep body endpoint).length :=
    (List.getElem?_eq_some_iff.mp h).1
  exact ⟨messages, bytes, texts, hm, hlen ▸ hi, hb, ht⟩

variable {bytes : List UInt8}

theorem encoded_pos {fields : Fields} (h : encoded tooDeep fields = some bytes) :
    0 < bytes.length := by
  obtain ⟨_, h⟩ := Option.ite_none_left_eq_some.mp h
  obtain ⟨x, y, hx, -, rfl⟩ := encode_cons h
  unfold CodePoint.utf8 at hx
  obtain ⟨_, hx⟩ := Option.dite_none_right_eq_some.mp hx
  cases hx
  rw [List.length_append, String.length_utf8EncodeChar]
  exact Nat.add_pos_left (Char.utf8Size_pos _) _

/-- The strengths that count grow with every message. -/
theorem keysLoop_increasing
    (h : keysLoop sha256 tooDeep following messages stream size conversation = some ks) :
    ((following && conversation) → ∀ k ∈ ks, size < k.2) ∧
      ks.Pairwise fun a b => 0 < a.2 → a.2 < b.2 := by
  induction messages generalizing stream size conversation ks with
  | nil =>
    cases h
    exact ⟨fun _ k hk => absurd hk List.not_mem_nil, List.Pairwise.nil⟩
  | cons message rest ih =>
    obtain ⟨bytes, tail, hb, -, ht, rfl⟩ := keysLoop_cons h
    obtain ⟨hlarger, hpair⟩ := ih ht
    have hpos := encoded_pos hb
    refine ⟨?_, List.pairwise_cons.mpr ⟨?_, hpair⟩⟩
    · intro hcount
      have hcount' : (following && (conversation || talks message)) := by
        rw [Bool.and_eq_true] at hcount ⊢
        exact ⟨hcount.1, by rw [hcount.2, Bool.true_or]⟩
      intro k hk
      rcases List.mem_cons.mp hk with rfl | hk
      · rw [if_pos hcount']
        omega
      · have hk' := hlarger hcount' k hk
        omega
    · intro k hk hstrength
      by_cases hcount : (following && (conversation || talks message))
      · rw [if_pos hcount]
        exact hlarger hcount k hk
      · rw [if_neg hcount] at hstrength
        exact absurd hstrength (Nat.lt_irrefl 0)

/-- A key counts when an assistant is among the messages and someone has talked up to it. -/
theorem strength_pos {i : ℕ} {key : δ × ℕ} (hm : messagesOf body = some messages)
    (h : (keys sha256 tooDeep body endpoint)[i]? = some key) :
    0 < key.2 ↔ messages.any isAssistant ∧ (messages.take (i + 1)).any talks := by
  obtain ⟨found, bytes, texts, hf, -, hb, ht⟩ := keys_spec h
  cases hm.symm.trans hf
  have hpos := encoded_pos hb
  rw [ht.strength_eq, Bool.false_or]
  by_cases hcount : (messages.any isAssistant && (messages.take (i + 1)).any talks)
  · rw [if_pos hcount]
    exact ⟨fun _ => Bool.and_eq_true_iff.mp hcount, fun _ => by omega⟩
  · rw [if_neg hcount]
    refine ⟨fun hlt => absurd hlt (Nat.lt_irrefl 0), fun hboth => ?_⟩
    exact absurd (Bool.and_eq_true_iff.mpr hboth) hcount

theorem keys_increasing :
    (keys sha256 tooDeep body endpoint).Pairwise fun a b => 0 < a.2 → a.2 < b.2 := by
  by_cases hne : keys sha256 tooDeep body endpoint = []
  · rw [hne]
    exact List.Pairwise.nil
  · obtain ⟨messages, bytes, -, -, -, hk⟩ := keys_some hne
    exact (keysLoop_increasing hk).2

/-! ## The bytes can be read back -/

theorem lengthBytes_inj {m n : ℕ} (hm : m < 2 ^ 64) (hn : n < 2 ^ 64)
    (h : lengthBytes m = lengthBytes n) : m = n := by
  unfold lengthBytes at h
  simp only [List.map_cons, List.map_nil, List.cons.injEq, ← UInt8.toNat_inj,
    and_true] at h
  obtain ⟨h7, h6, h5, h4, h3, h2, h1, h0⟩ := h
  norm_num at h7 h6 h5 h4 h3 h2 h1 h0
  omega

theorem frame_reads {a b r u : List UInt8} (ha : a.length < 2 ^ 64) (hb : b.length < 2 ^ 64)
    (h : frame a ++ r = frame b ++ u) : a = b ∧ r = u := by
  unfold frame at h
  rw [List.append_assoc, List.append_assoc] at h
  obtain ⟨hlength, hrest⟩ := List.append_inj h rfl
  exact List.append_inj hrest (lengthBytes_inj ha hb hlength)

variable {as bs : List (List UInt8)}

theorem frames_inj (ha : total as < 2 ^ 64) (hb : total bs < 2 ^ 64)
    (h : as.flatMap frame = bs.flatMap frame) : as = bs := by
  have hne : ∀ (a r : List UInt8), frame a ++ r ≠ [] := by
    intro a r hnil
    cases hnil
  induction as generalizing bs with
  | nil =>
    cases bs with
    | nil => rfl
    | cons b bs => exact absurd h.symm (hne b _)
  | cons a as ih =>
    cases bs with
    | nil => exact absurd h (hne a _)
    | cons b bs =>
      unfold total at ha hb
      rw [List.map_cons, List.sum_cons] at ha hb
      rw [List.flatMap_cons, List.flatMap_cons] at h
      obtain ⟨rfl, hrest⟩ := frame_reads (Nat.lt_of_le_of_lt (Nat.le_add_right _ _) ha)
        (Nat.lt_of_le_of_lt (Nat.le_add_right _ _) hb) h
      rw [ih (Nat.lt_of_le_of_lt (Nat.le_add_left _ _) ha)
        (Nat.lt_of_le_of_lt (Nat.le_add_left _ _) hb) hrest]

/-- Two messages are the same JSON. -/
def SameMessage (m n : Fields) : Prop := (Json.object m).Same (.object n)

theorem encode_of_encoded {fields : Fields} (h : encoded tooDeep fields = some bytes) :
    encode (Json.object fields).dumps = some bytes := by
  obtain ⟨_, h⟩ := Option.ite_none_left_eq_some.mp h
  exact h

theorem same_of_encoded {m n : Fields} (hm : encoded tooDeep m = some bytes)
    (hn : encoded tooDeep n = some bytes) : SameMessage m n :=
  (object_bytes_read (encode_of_encoded hm) (encode_of_encoded hn) (r := []) (u := []) rfl).1

theorem encoded_of_same {m n : Fields} {a b : List UInt8} (h : SameMessage m n)
    (hm : encoded tooDeep m = some a) (hn : encoded tooDeep n = some b) : a = b := by
  have ha := encode_of_encoded hm
  rw [dumps_of_same h, encode_of_encoded hn] at ha
  exact (Option.some.inj ha).symm

theorem same_of_texts {ms ns : List Fields} {texts : List (List UInt8)}
    (hm : List.Forall₂ (fun m t => encoded tooDeep m = some t) ms texts)
    (hn : List.Forall₂ (fun m t => encoded tooDeep m = some t) ns texts) :
    List.Forall₂ SameMessage ms ns := by
  induction hm generalizing ns with
  | nil =>
    cases hn
    exact List.Forall₂.nil
  | cons h _ ih =>
    cases hn with
    | cons h' hrest => exact List.Forall₂.cons (same_of_encoded h h') (ih hrest)

theorem texts_of_same {ms ns : List Fields}
    (hm : List.Forall₂ (fun m t => encoded tooDeep m = some t) ms as)
    (hn : List.Forall₂ (fun m t => encoded tooDeep m = some t) ns bs)
    (h : List.Forall₂ SameMessage ms ns) : as = bs := by
  induction h generalizing as bs with
  | nil =>
    cases hm
    cases hn
    rfl
  | cons hsame _ ih =>
    cases hm with
    | cons hm hms =>
      cases hn with
      | cons hn hns => rw [encoded_of_same hsame hm hn, ih hms hns]

/-- The first `n` messages of a body. -/
def leading (body : Fields) (n : ℕ) : List Fields := ((messagesOf body).getD []).take n

theorem leading_eq (h : messagesOf body = some messages) (n : ℕ) :
    leading body n = messages.take n := by
  unfold leading
  rw [h]
  rfl

/-- Equal digests stand at one position, after the same context and the same messages. -/
theorem digest_inj (hsha : Function.Injective sha256) {b₁ b₂ : Fields} {e₁ e₂ : String} {i j : ℕ}
    {k₁ k₂ : δ × ℕ} (h₁ : (keys sha256 tooDeep b₁ e₁)[i]? = some k₁)
    (h₂ : (keys sha256 tooDeep b₂ e₂)[j]? = some k₂) (h : k₁.1 = k₂.1) :
    i = j ∧ SameMessage (context b₁) (context b₂) ∧
      List.Forall₂ SameMessage (leading b₁ (i + 1)) (leading b₂ (i + 1)) := by
  obtain ⟨ms, c, as, hms, hi, hc, ha⟩ := keys_spec h₁
  obtain ⟨ns, d, bs, hns, hj, hd, hb⟩ := keys_spec h₂
  rw [ha.digest_eq, hb.digest_eq] at h
  obtain ⟨hcontext, hframes⟩ :=
    object_bytes_read (encode_of_encoded hc) (encode_of_encoded hd) (hsha h)
  have hsmall : maxBytes < 2 ^ 64 := by decide
  have hasize := ha.size_le
  have hbsize := hb.size_le
  obtain rfl := frames_inj (by omega) (by omega) hframes
  have hla := ha.texts_eq.length_eq
  have hlb := hb.texts_eq.length_eq
  rw [List.length_take, Nat.min_eq_left hi] at hla
  rw [List.length_take, Nat.min_eq_left hj] at hlb
  obtain rfl : i = j := by omega
  refine ⟨rfl, hcontext, ?_⟩
  rw [leading_eq hms, leading_eq hns]
  exact same_of_texts ha.texts_eq hb.texts_eq

/-- The body `b₂` has the context of `b₁`, and its messages go on from those of `b₁`. -/
def Extends (b₁ b₂ : Fields) : Prop :=
  SameMessage (context b₁) (context b₂) ∧
    ∃ ms ns, messagesOf b₁ = some ms ∧ messagesOf b₂ = some ns ∧
      List.Forall₂ SameMessage ms (ns.take ms.length)

theorem digest_of_extends {b₁ b₂ : Fields} {e₁ e₂ : String} {i : ℕ} {k₁ k₂ : δ × ℕ}
    (hext : Extends b₁ b₂) (h₁ : (keys sha256 tooDeep b₁ e₁)[i]? = some k₁)
    (h₂ : (keys sha256 tooDeep b₂ e₂)[i]? = some k₂) : k₁.1 = k₂.1 := by
  obtain ⟨hcontext, ms, ns, hms, hns, hsame⟩ := hext
  obtain ⟨ms', c, as, hms', hi, hc, ha⟩ := keys_spec h₁
  obtain ⟨ns', d, bs, hns', -, hd, hb⟩ := keys_spec h₂
  cases hms.symm.trans hms'
  cases hns.symm.trans hns'
  have htake : List.Forall₂ SameMessage (ms.take (i + 1)) (ns.take (i + 1)) := by
    have hcut := List.forall₂_take (i + 1) hsame
    rwa [List.take_take, Nat.min_eq_left hi] at hcut
  rw [ha.digest_eq, hb.digest_eq, encoded_of_same hcontext hc hd,
    texts_of_same ha.texts_eq hb.texts_eq htake]

end SparkDeck.Affinity
