import Mathlib.Data.List.Nodup
import SparkDeck.Responses.History

/-!
# A history that is sent back

* `lossless_iff`: the output items of every completion, sent back, give its texts and its calls
  again, and every flattened name is restored and expanded to itself, exactly if no tool of a
  namespace is followed by one whose flattened name is the first one's own name.
* `replay_renames`: where there are two such tools, the first is sent back as the second.

`_restore_namespace` compares each tool with the name the item has by then (`restore_first`), so a
name that was restored may be taken for a flattened one again; from there on what it expands to only
gets shorter (`expand_le`).
-/

namespace SparkDeck.Responses

variable {r : Request} {l : List Flat} {t u : Flat} {item : CallItem} {n : String}

/-! ## Flattened tools -/

theorem truthy_some {o : Option String} {s : String} (h : truthy o = some s) : s ≠ "" := by
  obtain ⟨-, hs⟩ := Option.filter_eq_some_iff.mp h
  exact of_decide_eq_true hs

theorem truthy_of_ne (h : n ≠ "") : truthy (some n) = some n := by simp [truthy, h]

theorem children_space {tool : Tool} {c : Child} {space : Option String}
    (h : (c, space) ∈ tool.children) (s : String) (hs : space = some s) : s ≠ "" := by
  unfold Tool.children at h
  split at h
  case h_1 k hk hn =>
    obtain ⟨c', hc', he⟩ := List.mem_map.mp h
    cases he
    cases hs
    exact truthy_some hn
  case h_2 =>
    cases List.mem_singleton.mp h
    cases hs

/-- What a flattened tool is. -/
structure Flat.Sound (t : Flat) : Prop where
  name : t.name = wireName t.space t.child
  space : ∀ s, t.space = some s → s ≠ ""

theorem flatten_sound {tools : List (Child × Option String)} {names : List String}
    (hspace : ∀ x ∈ tools, ∀ s, x.2 = some s → s ≠ "") (h : flatten tools names = some l) :
    (∀ t ∈ l, t.Sound ∧ t.name ∉ names) ∧ (l.map (·.name)).Nodup := by
  induction tools generalizing names l with
  | nil =>
    cases h
    exact ⟨fun t ht => absurd ht List.not_mem_nil, List.nodup_nil⟩
  | cons x tools ih =>
    obtain ⟨c, space⟩ := x
    rw [flatten] at h
    split at h
    case h_1 => cases h
    case h_2 child hc =>
      obtain ⟨hname, h⟩ := Option.ite_none_left_eq_some.mp h
      obtain ⟨rest, hrest, rfl⟩ := Option.map_eq_some_iff.mp h
      obtain ⟨hall, hnodup⟩ := ih (fun x hx => hspace x (List.mem_cons_of_mem _ hx)) hrest
      refine ⟨?_, ?_⟩
      · intro t ht
        rcases List.mem_cons.mp ht with rfl | ht
        · exact ⟨⟨rfl, hspace _ (List.mem_cons_self ..)⟩, fun hin => hname (Or.inr hin)⟩
        · obtain ⟨hsound, hfresh⟩ := hall t ht
          exact ⟨hsound, fun hin => hfresh (List.mem_cons_of_mem _ hin)⟩
      · refine List.nodup_cons.mpr ⟨fun hin => ?_, hnodup⟩
        obtain ⟨u, hu, hun⟩ := List.mem_map.mp hin
        exact (hall u hu).2 (hun ▸ List.mem_cons_self ..)

theorem Request.flat_sound (r : Request) :
    (∀ t ∈ r.flat, t.Sound) ∧ (r.flat.map (·.name)).Nodup := by
  have hspace : ∀ x ∈ r.tools.flatMap Tool.children, ∀ s, x.2 = some s → s ≠ "" := by
    intro x hx s hs
    obtain ⟨tool, -, hx⟩ := List.mem_flatMap.mp hx
    exact children_space hx s hs
  obtain ⟨hall, hnodup⟩ := flatten_sound hspace r.flattened
  exact ⟨fun t ht => (hall t ht).1, hnodup⟩

/-! ## Restoring a name -/

/-- One tool of `_restore_namespace`. -/
def restoreOne (item : CallItem) (t : Flat) : CallItem :=
  if some t.name = item.name ∧ t.space.isSome then
    { item with name := some t.child, space := t.space }
  else item

theorem restoreNamespace_eq (r : Request) (item : CallItem) :
    restoreNamespace r item = r.flat.foldl restoreOne item := rfl

/-- What `_to_chat_request` makes of the name of an item. -/
def CallItem.expand (item : CallItem) : Option String := sentName item.space item.name

/-- The tool is in a namespace and has the name of the item. -/
def Flat.Takes (t : Flat) (item : CallItem) : Prop := some t.name = item.name ∧ t.space.isSome

theorem restoreOne_of (h : t.Takes item) :
    restoreOne item t = { item with name := some t.child, space := t.space } := if_pos h

theorem restoreOne_of_not (h : ¬t.Takes item) : restoreOne item t = item := if_neg h

theorem restore_none (h : ∀ t ∈ l, ¬t.Takes item) : l.foldl restoreOne item = item := by
  induction l with
  | nil => rfl
  | cons t l ih =>
    rw [List.foldl_cons, restoreOne_of_not (h t (List.mem_cons_self ..))]
    exact ih fun u hu => h u (List.mem_cons_of_mem _ hu)

/-- The first tool with the name of the item is the one that takes it. -/
theorem restore_first {pre post : List Flat} (hnodup : ((pre ++ t :: post).map (·.name)).Nodup)
    (h : t.Takes item) :
    (pre ++ t :: post).foldl restoreOne item =
      post.foldl restoreOne { item with name := some t.child, space := t.space } := by
  have hpre : ∀ u ∈ pre, ¬u.Takes item := by
    rintro u hu ⟨hun, -⟩
    rw [List.map_append, List.nodup_append] at hnodup
    refine hnodup.2.2 u.name (List.mem_map_of_mem hu) t.name ?_ ?_
    · exact List.mem_map_of_mem (List.mem_cons_self ..)
    · exact Option.some.inj (hun.trans h.1.symm)
  rw [List.foldl_append, restore_none hpre, List.foldl_cons, restoreOne_of h]

theorem restore_fields (l : List Flat) (item : CallItem) :
    l.foldl restoreOne item =
      { item with
        name := (l.foldl restoreOne item).name
        space := (l.foldl restoreOne item).space } := by
  induction l generalizing item with
  | nil => rfl
  | cons t l ih =>
    rw [List.foldl_cons, ih]
    unfold restoreOne
    split <;> rfl

theorem expand_of_sound (h : t.Sound) (item : CallItem) :
    CallItem.expand { item with name := some t.child, space := t.space } = some t.name := by
  unfold CallItem.expand sentName
  rw [h.name]
  cases hs : t.space with
  | none => rfl
  | some s => simp [truthy_of_ne (h.space s hs), wireName]

/-- What an item expands to gets no longer. -/
theorem expand_le (item : CallItem) (hsound : ∀ t ∈ l, t.Sound) (hname : item.name = some n) :
    ∃ m m', item.expand = some m ∧ (l.foldl restoreOne item).expand = some m' ∧
      m'.length ≤ m.length := by
  induction l generalizing item n with
  | nil =>
    obtain ⟨m, hm⟩ : ∃ m, item.expand = some m := by
      unfold CallItem.expand sentName
      split
      · exact ⟨_, rfl⟩
      · exact ⟨n, hname⟩
    exact ⟨m, m, hm, hm, Nat.le_refl _⟩
  | cons t l ih =>
    have hrest := fun u hu => hsound u (List.mem_cons_of_mem _ hu)
    rw [List.foldl_cons, restoreOne]
    split
    case isFalse => exact ih item hrest hname
    case isTrue ht =>
      obtain ⟨m, m', hm, hm', hle⟩ :=
        ih { item with name := some t.child, space := t.space } hrest rfl
      rw [expand_of_sound (hsound t (List.mem_cons_self ..))] at hm
      cases hm
      have hlonger : ∃ m, item.expand = some m ∧ t.name.length ≤ m.length := by
        unfold CallItem.expand sentName
        rw [← ht.1]
        split
        case h_1 s _ =>
          refine ⟨_, rfl, ?_⟩
          simp only [Option.getD_some, String.length_append]
          omega
        case h_2 => exact ⟨t.name, rfl, Nat.le_refl _⟩
      obtain ⟨m, hm, hle'⟩ := hlonger
      exact ⟨m, m', hm, hm', Nat.le_trans hle hle'⟩

/-- No tool of a namespace has the own name of one before it. -/
def Unmistaken (l : List Flat) : Prop :=
  l.Pairwise fun t u => t.space.isSome → u.space.isSome → u.name ≠ t.child

theorem pairwise_of_split {R : Flat → Flat → Prop}
    (h : ∀ pre t post, l = pre ++ t :: post → ∀ u ∈ post, R t u) : l.Pairwise R := by
  induction l with
  | nil => exact .nil
  | cons a l ih =>
    refine List.pairwise_cons.mpr ⟨h [] a l rfl, ih fun pre t post hl => ?_⟩
    exact h (a :: pre) t post (by rw [hl]; rfl)

/-- An item that bears the name of a flattened tool. -/
structure Names (r : Request) (item : CallItem) (t : Flat) : Prop where
  mem : t ∈ r.flat
  name : item.name = some t.name
  space : item.space = none

theorem expand_self (h : Names r item t) : item.expand = some t.name := by
  rw [CallItem.expand, h.space, h.name]
  rfl

/-- The name of a tool without a namespace is nobody else's. -/
theorem restore_plain (h : Names r item t) (ht : t.space = none) :
    restoreNamespace r item = item := by
  refine restore_none fun u hu htakes => ?_
  obtain ⟨hname, hspace⟩ := htakes
  have hun : u.name = t.name := Option.some.inj (hname.trans h.name)
  obtain rfl := List.inj_on_of_nodup_map r.flat_sound.2 hu h.mem hun
  rw [ht] at hspace
  cases hspace

/-- What was restored expands to the name it had, if nothing takes it a second time. -/
theorem expand_restore (hl : Unmistaken r.flat) (h : Names r item t) :
    (restoreNamespace r item).expand = some t.name := by
  cases ht : t.space with
  | none => rw [restore_plain h ht, expand_self h]
  | some s =>
    have htakes : t.Takes item := ⟨h.name.symm, by rw [ht]; rfl⟩
    obtain ⟨pre, post, hsplit⟩ := List.append_of_mem h.mem
    have hnodup := r.flat_sound.2
    have hpair : Unmistaken (pre ++ t :: post) := hsplit ▸ hl
    have hlater := (List.pairwise_cons.mp (List.pairwise_append.mp hpair).2.1).1
    rw [restoreNamespace_eq, hsplit, restore_first (hsplit ▸ hnodup) htakes,
      restore_none fun u hu hu' => ?_]
    · exact expand_of_sound (r.flat_sound.1 t h.mem) item
    · exact hlater u hu htakes.2 hu'.2 (Option.some.inj hu'.1)

/-- A restored name that a later tool takes expands to something shorter. -/
theorem expand_mistaken {pre post : List Flat} (hsplit : r.flat = pre ++ t :: post)
    (h : Names r item t) (ht : t.space.isSome) (hu : u ∈ post) (hus : u.space.isSome)
    (hname : u.name = t.child) : (restoreNamespace r item).expand ≠ some t.name := by
  have hnodup : ((pre ++ t :: post).map (·.name)).Nodup := hsplit ▸ r.flat_sound.2
  have hsound := r.flat_sound.1
  rw [hsplit] at hsound
  obtain ⟨mid, last, rfl⟩ := List.append_of_mem hu
  have hpost : ((mid ++ u :: last).map (·.name)).Nodup := by
    rw [List.map_append, List.nodup_append, List.map_cons, List.nodup_cons] at hnodup
    exact hnodup.2.1.2
  rw [restoreNamespace_eq, hsplit, restore_first hnodup ⟨h.name.symm, ht⟩,
    restore_first hpost ⟨congrArg some hname, hus⟩]
  intro hexp
  have hlast : ∀ x ∈ last, x.Sound := fun x hx => hsound x (by simp [hx])
  obtain ⟨m, m', hm, hm', hle⟩ :=
    expand_le { item with name := some u.child, space := u.space } hlast rfl
  rw [expand_of_sound (hsound u (by simp))] at hm
  rw [hexp] at hm'
  cases hm
  cases hm'
  obtain ⟨s, hs⟩ := Option.isSome_iff_exists.mp ht
  have hlong : t.name.length = s.length + 2 + t.child.length := by
    rw [(hsound t (by simp)).name, hs, wireName, String.length_append, String.length_append]
    rfl
  rw [hname] at hle
  omega

/-! ## Completions and what is sent back -/

variable {codec : Codec}

/-- A call of a completion: it has an id and names a flattened tool, and the arguments of a custom
tool are an object whose only key is `input`, a string. -/
structure Use (codec : Codec) (r : Request) where
  id : String
  name : String
  arguments : String
  id_ne : id ≠ ""
  named : name ∈ r.flat.map (·.name)
  wrapped : name ∈ r.customNames → ∃ v, codec.loads arguments = some (codec.wrap (some v))

def Use.toCall (c : Use codec r) : ToolCall :=
  ⟨.value c.id, .value ⟨.value c.name, .value c.arguments⟩⟩

/-- A complete completion. -/
structure Turn (codec : Codec) (r : Request) where
  content : Field String
  refusal : Field String
  calls : List (Use codec r)
  toolCalls : Field (List ToolCall)
  called : toolCalls.get [] = some (calls.map Use.toCall)
  finish : String
  finish_ne : finish ≠ ""
  usage : Field Usage
  others : List Choice

namespace Turn

variable (m : Turn codec r)

def payload : Payload :=
  ⟨none, .value (⟨some m.finish, .value ⟨m.content, m.refusal, m.toolCalls⟩⟩ :: m.others), m.usage⟩

/-- Its text, and its refusal. -/
def texts : List String := m.content.get?.toList ++ (truthy m.refusal.get?).toList

end Turn

/-- The texts of a message. -/
def ChatMessage.texts (m : ChatMessage) : List String :=
  match m.content with
  | some (.parts l) => l.map ChatPart.asText
  | some (.text s) => [s]
  | none => []

/-- The call is sent as it was received; the arguments of a custom tool may be written otherwise. -/
def Same (codec : Codec) (r : Request) (c : Use codec r) (sent : ChatCall) : Prop :=
  sent.id = some c.id ∧ sent.name = some c.name ∧
    ∃ a, sent.arguments = some a ∧
      if c.name ∈ r.customNames then codec.loads a = codec.loads c.arguments else a = c.arguments

/-- Sent back behind `prior`, the output of a completion gives its texts and calls again. -/
def Replays (m : Turn codec r) (generated : String) (prior : List ChatMessage) : Prop :=
  ∃ resp added, fromChatResponse codec.customInput r m.payload = .ok resp ∧
    chatMessages codec prior (resp.output.map (Item.sent generated)) = .ok (prior ++ added) ∧
    (∀ x ∈ added, x.role = "assistant") ∧ added.flatMap ChatMessage.texts = m.texts ∧
    List.Forall₂ (Same codec r) m.calls (added.flatMap (·.toolCalls))

/-- Nothing is lost: of no completion, and of no name. -/
def Lossless (codec : Codec) (r : Request) : Prop :=
  (∀ (m : Turn codec r) (generated : String) (prior : List ChatMessage),
      (∀ last ∈ prior.getLast?, last.role ≠ "assistant") → Replays m generated prior) ∧
    ∀ t ∈ r.flat, ∀ item, Names r item t → (restoreNamespace r item).expand = some t.name

/-! ## Calls -/

/-- The item of a call, before its namespace is restored. -/
def Use.called (status : Status) (value : String) (c : Use codec r) : CallItem :=
  ⟨decide (c.name ∈ r.customNames), status, some c.id, some c.name, none, some value⟩

theorem callItem_use (c : Use codec r) (status : Status) (truncated : Bool) :
    ∃ value, callItem codec.customInput c.toCall r.customNames status truncated =
        .ok (c.called status value) ∧
      if c.name ∈ r.customNames then codec.loads c.arguments = some (codec.wrap (some value))
      else value = c.arguments := by
  have hid : truthy (some c.id) = some c.id := truthy_of_ne c.id_ne
  by_cases hc : c.name ∈ r.customNames
  · obtain ⟨v, hv⟩ := c.wrapped hc
    have hne : c.arguments ≠ "" := by
      intro he
      rw [he, codec.loads_empty] at hv
      cases hv
    have hinput : inputOf codec.customInput (some c.arguments) = some v := by
      rw [inputOf, truthy_of_ne hne, Option.bind_some, Codec.customInput, hv, Option.bind_some,
        codec.input_wrap]
    refine ⟨v, ?_, by rw [if_pos hc]; exact hv⟩
    simp only [callItem, Use.toCall, Field.get, Field.get?, itemOf, if_pos hc, hinput, hid,
      Use.called, decide_eq_true hc]
  · refine ⟨c.arguments, ?_, by rw [if_neg hc]⟩
    simp only [callItem, Use.toCall, Field.get, Field.get?, itemOf, if_neg hc, hid, Use.called,
      decide_eq_false hc]

/-- The call as it is sent back. -/
def CallItem.sentCall (codec : Codec) (generated : String) (item : CallItem) : ChatCall where
  id := some (item.callId.getD generated)
  name := item.expand
  arguments := if item.custom then some (codec.dumps (codec.wrap item.value)) else item.value

theorem inputItem_call (codec : Codec) (messages : List ChatMessage) (generated : String)
    (item : CallItem) :
    inputItem codec messages (Item.sent generated (.call item)) =
      .ok (attach messages (item.sentCall codec generated)) := by
  obtain ⟨custom, status, callId, name, space, value⟩ := item
  cases name <;> cases space <;> cases value <;> rfl

/-- What of a call becomes of its item: the namespace is restored and expanded again. -/
theorem same_restored (hl : Unmistaken r.flat) {c : Use codec r} {status : Status} {value : String}
    (hv : if c.name ∈ r.customNames then codec.loads c.arguments = some (codec.wrap (some value))
      else value = c.arguments) (generated : String) :
    Same codec r c ((restoreNamespace r (c.called status value)).sentCall codec generated) := by
  obtain ⟨t, ht, hname⟩ := List.mem_map.mp c.named
  have hnames : Names r (c.called status value) t := ⟨ht, by rw [hname]; rfl, rfl⟩
  have hfields := restore_fields r.flat (c.called status value)
  rw [← restoreNamespace_eq] at hfields
  refine ⟨?_, ?_, ?_⟩
  · rw [CallItem.sentCall, hfields]
    rfl
  · rw [CallItem.sentCall, expand_restore hl hnames, hname]
  · rw [CallItem.sentCall, hfields]
    by_cases hc : c.name ∈ r.customNames
    · rw [if_pos hc] at hv
      refine ⟨codec.dumps (codec.wrap (some value)), ?_, ?_⟩
      · simp only [Use.called, decide_eq_true hc, if_true]
      · rw [if_pos hc, codec.loads_dumps, hv]
    · rw [if_neg hc] at hv
      refine ⟨value, ?_, ?_⟩
      · simp only [Use.called, decide_eq_false hc, Bool.false_eq_true, if_false]
      · rw [if_neg hc, hv]

theorem callItems_same (hl : Unmistaken r.flat) (calls : List (Use codec r)) (status : Status)
    (truncated : Bool) (generated : String) :
    ∃ items, callItems codec.customInput r status truncated (calls.map Use.toCall) = .ok items ∧
      List.Forall₂ (fun c item => Same codec r c (item.sentCall codec generated)) calls items := by
  induction calls with
  | nil => exact ⟨[], rfl, .nil⟩
  | cons c calls ih =>
    obtain ⟨items, hitems, hsame⟩ := ih
    obtain ⟨value, hcall, hv⟩ := callItem_use c status truncated
    refine ⟨restoreNamespace r (c.called status value) :: items, ?_,
      .cons (same_restored hl hv generated) hsame⟩
    rw [List.map_cons, callItems, hcall]
    simp only [hitems]

/-! ## Messages -/

/-- The message of a text. -/
def said (t : String) : ChatMessage := ⟨"assistant", some (.parts [.text t]), [], none⟩

theorem inputItem_message (codec : Codec) (messages : List ChatMessage) (generated : String)
    (status : Status) (p : Part) :
    inputItem codec messages (Item.sent generated (.message status [p])) =
      .ok (messages ++ [said p.text]) := by
  obtain ⟨refusal, text⟩ := p
  cases refusal <;> rfl

theorem chatMessages_messages (codec : Codec) (prior : List ChatMessage) (generated : String)
    (status : Status) (parts : List Part) :
    chatMessages codec prior
        ((parts.map fun p => Item.message status [p]).map (Item.sent generated)) =
      .ok (prior ++ parts.map fun p => said p.text) := by
  induction parts generalizing prior with
  | nil => rw [List.map_nil, List.map_nil, List.map_nil, List.append_nil]; rfl
  | cons p parts ih =>
    have hrest := ih (prior ++ [said p.text])
    rw [List.append_assoc] at hrest
    rw [List.map_cons, List.map_cons, chatMessages, List.foldlM_cons, inputItem_message]
    exact hrest

theorem chatMessages_calls (codec : Codec) (prior : List ChatMessage) (generated : String)
    (items : List CallItem) :
    chatMessages codec prior ((items.map Item.call).map (Item.sent generated)) =
      .ok ((items.map (·.sentCall codec generated)).foldl attach prior) := by
  induction items generalizing prior with
  | nil => rfl
  | cons item items ih =>
    rw [List.map_cons, List.map_cons, chatMessages, List.foldlM_cons, inputItem_call]
    exact ih _

theorem foldl_attach (prior : List ChatMessage) {x : ChatMessage} (hx : x.role = "assistant")
    (calls : List ChatCall) :
    calls.foldl attach (prior ++ [x]) =
      prior ++ [{ x with toolCalls := x.toolCalls ++ calls }] := by
  induction calls generalizing x with
  | nil => simp
  | cons c calls ih =>
    have hattach : attach (prior ++ [x]) c =
        prior ++ [{ x with toolCalls := x.toolCalls ++ [c] }] := by
      simp [attach, hx]
    rw [List.foldl_cons, hattach, ih (x := { x with toolCalls := x.toolCalls ++ [c] }) hx,
      List.append_assoc, List.singleton_append]

variable {prior : List ChatMessage}

/-- Calls behind a message that is not the assistant's go to a message of their own. -/
theorem foldl_attach_prior (h : ∀ last ∈ prior.getLast?, last.role ≠ "assistant") (c : ChatCall)
    (calls : List ChatCall) :
    (c :: calls).foldl attach prior = prior ++ [⟨"assistant", none, c :: calls, none⟩] := by
  have hattach : attach prior c = prior ++ [⟨"assistant", none, [c], none⟩] := by
    unfold attach
    cases hlast : prior.getLast? with
    | none =>
      rw [List.getLast?_eq_none_iff.mp hlast]
      rfl
    | some last => simp only [if_neg (h last hlast)]
  rw [List.foldl_cons, hattach, foldl_attach prior rfl]
  rfl

/-- Texts and calls behind `prior`. -/
theorem foldl_attach_said (h : ∀ last ∈ prior.getLast?, last.role ≠ "assistant")
    (texts : List String) (calls : List ChatCall) :
    ∃ added, calls.foldl attach (prior ++ texts.map said) = prior ++ added ∧
      (∀ x ∈ added, x.role = "assistant") ∧ added.flatMap ChatMessage.texts = texts ∧
      added.flatMap (·.toolCalls) = calls := by
  have htexts : ∀ l : List String, (l.map said).flatMap ChatMessage.texts = l := by
    intro l
    induction l with
    | nil => rfl
    | cons t l ih => rw [List.map_cons, List.flatMap_cons, ih]; rfl
  have hcalls : ∀ l : List String, (l.map said).flatMap (·.toolCalls) = [] := by
    intro l
    induction l with
    | nil => rfl
    | cons t l ih => rw [List.map_cons, List.flatMap_cons, ih]; rfl
  have hroles : ∀ l : List String, ∀ x ∈ l.map said, x.role = "assistant" := by
    intro l x hx
    obtain ⟨t, -, rfl⟩ := List.mem_map.mp hx
    rfl
  rcases List.eq_nil_or_concat texts with rfl | ⟨init, t, rfl⟩
  · cases calls with
    | nil => exact ⟨[], by simp, by simp, rfl, rfl⟩
    | cons c calls =>
      refine ⟨[⟨"assistant", none, c :: calls, none⟩], ?_, by simp, rfl, by simp⟩
      rw [List.map_nil, List.append_nil, foldl_attach_prior h]
  · refine ⟨init.map said ++ [{ said t with toolCalls := calls }], ?_, ?_, ?_, ?_⟩
    · rw [List.concat_eq_append, List.map_append, List.map_singleton, ← List.append_assoc,
        foldl_attach _ rfl, List.append_assoc]
      rfl
    · intro x hx
      rcases List.mem_append.mp hx with hx | hx
      · exact hroles init x hx
      · rw [List.mem_singleton.mp hx]
        rfl
    · rw [List.flatMap_append, htexts, List.concat_eq_append]
      rfl
    · rw [List.flatMap_append, hcalls]
      simp

/-! ## The history -/

theorem fromChatResponse_payload (m : Turn codec r) :
    fromChatResponse codec.customInput r m.payload =
      match fromMessage codec.customInput r m.finish m.usage
        ⟨m.content, m.refusal, m.toolCalls⟩ with
      | .ok resp => .ok resp
      | .error f => .error (if f.isTypeError then .malformed else f) := by
  have hchoice : fromChatResponse' codec.customInput r m.payload =
      fromChoice codec.customInput r m.usage
        ⟨some m.finish, .value ⟨m.content, m.refusal, m.toolCalls⟩⟩ := rfl
  rw [fromChatResponse, hchoice, fromChoice]
  rw [truthy_of_ne m.finish_ne]
  rfl

theorem replays_of_unmistaken (hl : Unmistaken r.flat) (m : Turn codec r) (generated : String)
    (h : ∀ last ∈ prior.getLast?, last.role ≠ "assistant") : Replays m generated prior := by
  let parts := (m.content.get?.toList.map fun t => (⟨false, t⟩ : Part)) ++
    (truthy m.refusal.get?).toList.map fun t => ⟨true, t⟩
  have hparts : parts.map (fun p => said p.text) = m.texts.map said := by
    simp [parts, Turn.texts, Function.comp_def]
  obtain ⟨items, hitems, hsame⟩ :=
    callItems_same hl m.calls (finalStatus m.finish) (m.finish == "length") generated
  obtain ⟨added, hadded, hroles, htexts, hcalls⟩ :=
    foldl_attach_said h m.texts (items.map (·.sentCall codec generated))
  have hresp : fromChatResponse codec.customInput r m.payload = .ok { response r with
      status := finalStatus m.finish
      output := parts.map (fun p => Item.message (finalStatus m.finish) [p]) ++ items.map .call
      usage := m.usage.get?.map usage
      incompleteDetails := incompleteDetails m.finish } := by
    have hoptional : parts.map (fun p => Item.message (finalStatus m.finish) [p]) =
        m.content.get?.toList.map (fun t => Item.message (finalStatus m.finish) [⟨false, t⟩]) ++
          (truthy m.refusal.get?).toList.map fun t =>
            .message (finalStatus m.finish) [⟨true, t⟩] := by
      simp [parts, Function.comp_def]
    rw [fromChatResponse_payload, fromMessage]
    simp only [m.called, hitems, hoptional]
  refine ⟨_, added, hresp, ?_, hroles, htexts, ?_⟩
  · rw [List.map_append, chatMessages, List.foldlM_append]
    have hmessages := chatMessages_messages codec prior generated (finalStatus m.finish) parts
    rw [chatMessages] at hmessages
    rw [hmessages, hparts, ← hadded]
    exact chatMessages_calls codec _ generated items
  · rw [hcalls]
    exact List.forall₂_map_right_iff.mpr hsame

/-- **Replay is lossless.** -/
theorem lossless_iff (codec : Codec) (r : Request) :
    Lossless codec r ↔ Unmistaken r.flat := by
  constructor
  · rintro ⟨-, hnames⟩
    refine pairwise_of_split fun pre t post hsplit u hu ht hus hname => ?_
    have hmem : t ∈ r.flat := by rw [hsplit]; simp
    have hitem : Names r ⟨false, .completed, none, some t.name, none, none⟩ t := ⟨hmem, rfl, rfl⟩
    exact expand_mistaken hsplit hitem ht hu hus hname (hnames t hmem _ hitem)
  · intro hl
    exact ⟨fun m generated prior h => replays_of_unmistaken hl m generated h,
      fun t ht item hitem => expand_restore hl hitem⟩

/-! ## A name that is taken twice -/

def wrapOpen : List Char := "\x7b\"input\": \"".toList

def wrapClose : List Char := "\"\x7d".toList

def wrapNull : List Char := "\x7b\"input\": null\x7d".toList

/-- JSON of objects whose only key is `input`, with strings that need no escapes. -/
def plainLoads (text : String) : Option (Option String) :=
  if text.toList = wrapNull then some none
  else if wrapOpen.isPrefixOf text.toList then
    some (some (String.ofList (text.toList.drop wrapOpen.length).dropLast.dropLast))
  else none
def plainDumps : Option String → String
  | none => String.ofList wrapNull
  | some s => String.ofList (wrapOpen ++ s.toList ++ wrapClose)

theorem wrap_ne (s : List Char) : wrapOpen ++ s ++ wrapClose ≠ wrapNull := by
  intro he
  have h10 : (wrapOpen ++ s ++ wrapClose)[10]? = wrapNull[10]? := by rw [he]
  rw [List.append_assoc, List.getElem?_append_left (by decide)] at h10
  revert h10
  decide

theorem plain_loads_dumps (v : Option String) : plainLoads (plainDumps v) = some v := by
  cases v with
  | none => rw [plainDumps, plainLoads, String.toList_ofList, if_pos rfl]
  | some s =>
    have hopen : wrapOpen.isPrefixOf (wrapOpen ++ s.toList ++ wrapClose) := by
      rw [List.isPrefixOf_iff_prefix, List.append_assoc]
      exact List.prefix_append ..
    rw [plainDumps, plainLoads, String.toList_ofList, if_neg (wrap_ne s.toList), if_pos hopen,
      List.append_assoc, List.drop_left]
    rw [show wrapClose = [_] ++ [_] from rfl, ← List.append_assoc, List.dropLast_concat,
      List.dropLast_concat, String.ofList_toList]

def plain : Codec where
  Value := Option String
  loads := plainLoads
  dumps := plainDumps
  wrap := fun v => v
  input := fun v => v
  loads_dumps := plain_loads_dumps
  loads_empty := by decide
  input_wrap := fun _ => rfl

/-- The tools `x.y__z` and `y.z`. -/
def overlapping : Request where
  model := some "m"
  parallelToolCalls := true
  tools := [⟨⟨.namespaced, some "x"⟩, [⟨.function, some "y__z"⟩]⟩,
    ⟨⟨.namespaced, some "y"⟩, [⟨.function, some "z"⟩]⟩]
  flat := [⟨"x__y__z", .function, some "x", "y__z"⟩, ⟨"y__z", .function, some "y", "z"⟩]
  flattened := by decide

def callFirst : Use plain overlapping where
  id := "call_1"
  name := "x__y__z"
  arguments := "\x7b\x7d"
  id_ne := by decide
  named := by decide
  wrapped := nofun

def askFirst : Turn plain overlapping where
  content := .value "ok"
  refusal := .absent
  calls := [callFirst]
  toolCalls := .value [callFirst.toCall]
  called := rfl
  finish := "tool_calls"
  finish_ne := by decide
  usage := .absent
  others := []

theorem replay_renames : ¬Lossless plain overlapping ∧ ¬Replays askFirst "" [] := by
  constructor
  · rintro ⟨-, hnames⟩
    have h := hnames ⟨"x__y__z", .function, some "x", "y__z"⟩ (by decide)
      ⟨false, .completed, none, some "x__y__z", none, none⟩ ⟨by decide, rfl, rfl⟩
    revert h
    decide
  · rintro ⟨resp, added, hresp, hadded, -, -, hcalls⟩
    cases hresp
    cases hadded
    cases hcalls with
    | cons h _ =>
      obtain ⟨-, hname, -⟩ := h
      revert hname
      decide

end SparkDeck.Responses
