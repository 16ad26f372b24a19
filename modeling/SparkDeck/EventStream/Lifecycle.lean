import SparkDeck.EventStream.Grammar
import SparkDeck.Lib.Segments

/-!
# The events of a response are well formed

* `wellFormed_iff`: whatever the upstream yields, and whatever it raises, the events of
  `stream_chat_response` are `WellFormed` exactly if `json.dumps` writes the usage it has read last
  (`lastUsage`).
* `unwritten_usage`: two token counts that `json.loads` reads can have a sum that `json.dumps`
  refuses, and then there is no terminal event.

While the stream runs, its events are the two opening ones and one segment for each item
(`Running`); the loop that closes the items adds one more segment for each (`Closing`).
-/

namespace SparkDeck.EventStream

open Responses (Request CallItem Part Status Reason CallState finalStatus incompleteDetails
  restoreNamespace)
open Effect Segments

variable {V : Type}

/-! ## What is read -/

section Reading

variable (p : Python)

/-- What `callDelta` reads. -/
def readCall (d : p.Value) : Except String Unit := do
  let index ← p.get d "index"
  let _ ← index.elim (.ok p.keyZero) p.key
  let _ ← (p.get d "id").bind (addText p "")
  let function ← p.get d "function"
  let _ ← (getIn p (function.filter p.truth) "name").bind (addText p "")
  let _ ← (getIn p (function.filter p.truth) "arguments").bind (addText p "")
  pure ()

/-- What `speak` reads; `flag` says whether the message is a refusal, once it has started. -/
def readText (flag : Option Bool) (content refusal : Option p.Value) :
    Except String (Option Bool) :=
  match (content.filter p.truth).or (refusal.filter p.truth) with
  | none => .ok flag
  | some text =>
    if flag = some (!refusal.any p.truth) then
      .error "Upstream mixed text and refusal in the same message"
    else
      match p.text text with
      | none => .error (p.notText text)
      | some _ => .ok (some (refusal.any p.truth))

def readChoice (flag : Option Bool) (c : p.Value) : Except String (Option Bool) := do
  let index ← p.get c "index"
  if index.all p.isZero then do
    let delta ← p.get c "delta"
    let _ ← p.get c "finish_reason"
    let content ← getIn p delta "content"
    let refusal ← getIn p delta "refusal"
    let flag ← readText p flag content refusal
    let calls ← (getIn p delta "tool_calls").bind (iterate p)
    calls.forM (readCall p)
    pure flag
  else pure flag

def readChoices (flag : Option Bool) (c : p.Value) : Except String (Option Bool) := do
  let choices ← (p.get c "choices").bind (iterate p)
  choices.foldlM (readChoice p) flag

def readUsage (u : Option (Usage p.Value)) (c : p.Value) :
    Except String (Option (Usage p.Value)) := do
  match (← p.get c "usage").filter p.truth with
  | some v => (usage p v).map some
  | none => pure u

/-- A chunk, and the usage after it. -/
def readChunk (u : Option (Usage p.Value)) (data : List Char) :
    Except String (p.Value × Option (Usage p.Value)) := do
  let c ← p.loads data
  match (← p.get c "error").filter p.truth with
  | some e => .error (p.str e)
  | none => do
    let u ← readUsage p u c
    pure (c, u)

/-- The usage of the last chunk that has one, up to the first chunk that raises. -/
def lastUsage : Option Bool → Option (Usage p.Value) → List (List Char) →
    Option (Usage p.Value)
  | _, u, [] => u
  | flag, u, data :: rest =>
    if data = "[DONE]".toList then u
    else
      match readChunk p u data with
      | .error _ => u
      | .ok (c, u) =>
        match readChoices p flag c with
        | .error _ => u
        | .ok flag => lastUsage flag u rest

/-- `json.dumps` writes the usage. -/
def written (u : Option (Usage p.Value)) : Bool := u.all fun u => u.all p p.writes

end Reading

/-! ## The stream -/

section Stream

variable {p : Python} {r : Request} {α β : Type} {P R : State p → Prop} {s : State p}
  {flag : Option Bool} {u : Option (Usage p.Value)} {status : Status}

/-- A step that keeps `P`, also when it raises. -/
abbrev Keeps (P : State p → Prop) (m : M p α) : Prop := Spec P m (fun _ => P) P

theorem keeps_forM {f : α → M p Unit} (h : ∀ a, Keeps P (f a)) (l : List α) :
    Keeps P (l.forM f) := by
  induction l with
  | nil => exact Spec.pure fun _ h => h
  | cons a l ih => exact Spec.bind (h a) fun _ => ih

theorem forM_snoc (f : α → M p Unit) (l : List α) (a : α) :
    (l ++ [a]).forM f = l.forM f >>= fun _ => f a := by
  induction l with
  | nil =>
    change (f a >>= fun _ => pure ()) = (pure () >>= fun _ => f a)
    rw [pure_bind, bind_pure_unit]
  | cons b l ih =>
    change (f b >>= fun _ => (l ++ [a]).forM f) = (f b >>= fun _ => l.forM f) >>= fun _ => f a
    rw [ih, bind_assoc]

/-- A loop over indices. -/
theorem spec_range {P : ℕ → State p → Prop} {f : ℕ → M p Unit} (n : ℕ)
    (h : ∀ k < n, Spec (P k) (f k) (fun _ => P (k + 1)) R) :
    Spec (P 0) ((List.range n).forM f) (fun _ => P n) R := by
  induction n with
  | zero => exact Spec.pure fun _ h => h
  | succ n ih =>
    rw [List.range_succ, forM_snoc]
    exact Spec.bind (ih fun k hk => h k (Nat.lt_succ_of_lt hk)) fun _ => h n (Nat.lt_succ_self n)

/-! ### Events -/

/-- The event is yielded. -/
def emit (s : State p) (e : Event p.Value) : State p :=
  { s with sequence := s.sequence + 1, emitted := s.emitted ++ [(s.sequence, e)] }

theorem event_ok {e : Event p.Value} (h : e.written p) : event p e s = .ok () (emit s e) :=
  if_pos h

theorem event_error {e : Event p.Value} (h : e.written p = false) :
    event p e s = .error p.unwritten { s with sequence := s.sequence + 1 } :=
  if_neg (by rw [h]; exact Bool.false_ne_true)

variable {details : Option Reason}

theorem terminal_ok {error : Option String} (h : written p s.usage) :
    event p (.terminal (snapshot p r s status error details)) s
      = .ok () (emit s (.terminal (snapshot p r s status error details))) := event_ok h

theorem terminal_error {error : Option String} (h : written p s.usage = false) :
    event p (.terminal (snapshot p r s status error details)) s
      = .error p.unwritten { s with sequence := s.sequence + 1 } := event_error h

def State.events (s : State p) : List (Event p.Value) := s.emitted.map Prod.snd

theorem events_emit (s : State p) (e : Event p.Value) : (emit s e).events = s.events ++ [e] := by
  simp [State.events, emit]

/-- The events are numbered from 0 on. -/
structure Numbered (s : State p) : Prop where
  numbers : s.emitted.map Prod.fst = List.range s.emitted.length
  sequence : s.sequence = s.emitted.length

variable {t : State p}

theorem Numbered.congr (h : Numbered s) (hseq : t.sequence = s.sequence)
    (hem : t.emitted = s.emitted) : Numbered t where
  numbers := by rw [hem, h.numbers]
  sequence := by rw [hseq, hem, h.sequence]

theorem Numbered.emit (h : Numbered s) (e : Event p.Value) : Numbered (emit s e) where
  numbers := by
    simp only [EventStream.emit, List.map_append, h.numbers, List.map_singleton, h.sequence,
      List.length_append, List.length_singleton, List.range_succ]
  sequence := by
    simp only [EventStream.emit, h.sequence, List.length_append, List.length_singleton]

/-- The events are yielded. -/
def emitAll (s : State p) (l : List (Event p.Value)) : State p := l.foldl emit s

theorem emitAll_events (s : State p) (l : List (Event p.Value)) :
    (emitAll s l).events = s.events ++ l := by
  induction l generalizing s with
  | nil => exact (List.append_nil _).symm
  | cons e l ih =>
    change (emitAll (emit s e) l).events = s.events ++ e :: l
    rw [ih, events_emit, List.append_assoc]
    rfl

theorem Numbered.emitAll (h : Numbered s) (l : List (Event p.Value)) : Numbered (emitAll s l) := by
  induction l generalizing s with
  | nil => exact h
  | cons e l ih => exact ih (h.emit e)

theorem emitAll_usage (s : State p) (l : List (Event p.Value)) :
    (emitAll s l).usage = s.usage := by
  induction l generalizing s with
  | nil => rfl
  | cons e l ih => exact ih (emit s e)

theorem emitAll_output (s : State p) (l : List (Event p.Value)) :
    (emitAll s l).output = s.output := by
  induction l generalizing s with
  | nil => rfl
  | cons e l ih => exact ih (emit s e)

/-- The response of the opening events. -/
def start (r : Request) : Snapshot p.Value :=
  ⟨.inProgress, none, none, r.model, [], none, r.parallelToolCalls⟩

/-- The opening events. -/
def head (r : Request) : List (Event p.Value) := [.created (start r), .inProgress (start r)]

structure Running (r : Request) (u : Option (Usage p.Value)) (s : State p) : Prop where
  numbered : Numbered s
  usage : s.usage = u
  events : ∃ opened, s.events = head r ++ opened ∧ Laid Opened s.output opened
  fresh : ∀ e ∈ s.output, e.id < s.ids
  nodup : (s.output.map Entry.id).Nodup

/-- The message is the only item, and has a part; `flag` says which. -/
inductive Lone : Option Bool → State p → Prop where
  | none {s : State p} : s.message = none → s.output = [] → Lone none s
  | some {s : State p} (id : ℕ) (refusal : Bool) (text : String) : s.message = some 0 →
      s.output = [.message id .inProgress [⟨refusal, text⟩]] → Lone (some refusal) s

/-- While the payloads are read. -/
def Streaming (r : Request) (flag : Option Bool) (u : Option (Usage p.Value)) (s : State p) :
    Prop :=
  Running r u s ∧ Lone flag s

/-- The same events and items. -/
structure Alike (s t : State p) : Prop where
  sequence : t.sequence = s.sequence
  emitted : t.emitted = s.emitted
  ids : t.ids = s.ids
  output : t.output = s.output
  message : t.message = s.message

theorem Streaming.alike {u' : Option (Usage p.Value)} (h : Streaming r flag u s) (ht : Alike s t)
    (hu : t.usage = u') : Streaming r flag u' t := by
  obtain ⟨⟨hnum, -, hev, hfresh, hnodup⟩, hlone⟩ := h
  refine ⟨⟨hnum.congr ht.sequence ht.emitted, hu, ?_, ?_, ?_⟩, ?_⟩
  · rw [State.events, ht.emitted, ht.output]
    exact hev
  · rw [ht.output, ht.ids]
    exact hfresh
  · rw [ht.output]
    exact hnodup
  · cases hlone with
    | none hmsg hout => exact Lone.none (ht.message.trans hmsg) (ht.output.trans hout)
    | some id refusal text hmsg hout =>
      exact Lone.some id refusal text (ht.message.trans hmsg) (ht.output.trans hout)

/-! ### The payloads -/

theorem joined_snoc (l : List String) (t : String) : joined (l ++ [t]) = joined l ++ t := by
  induction l with
  | nil => simp [joined]
  | cons a l ih =>
    have h : joined (a :: (l ++ [t])) = a ++ joined (l ++ [t]) := rfl
    rw [List.cons_append, h, ih, ← String.append_assoc]
    rfl

variable {seg : List (Event p.Value)}

/-- An item comes with what is told when it is opened. -/
theorem Running.add {entry : Entry} (h : Running r u s) (ht : Numbered t) (hu : t.usage = s.usage)
    (hev : t.events = s.events ++ seg) (hout : t.output = s.output ++ [entry])
    (hid : entry.id = s.ids) (hids : t.ids = s.ids + 1) (hseg : Opened s.output.length entry seg) :
    Running r u t where
  numbered := ht
  usage := hu.trans h.usage
  events := by
    obtain ⟨opened, heq, hlaid⟩ := h.events
    refine ⟨opened ++ seg, by rw [hev, heq, List.append_assoc], ?_⟩
    rw [hout]
    exact hlaid.snoc hseg
  fresh := by
    intro e he
    rw [hout] at he
    rw [hids]
    rcases List.mem_append.mp he with he | he
    · exact Nat.lt_succ_of_lt (h.fresh e he)
    · rw [List.mem_singleton.mp he, hid]
      exact Nat.lt_succ_self _
  nodup := by
    rw [hout, List.map_append, List.map_singleton]
    refine List.nodup_append.mpr ⟨h.nodup, List.nodup_singleton _, ?_⟩
    intro a ha b hb hab
    obtain ⟨e, he, rfl⟩ := List.mem_map.mp ha
    rw [List.mem_singleton.mp hb, hid] at hab
    exact absurd (h.fresh e he) (by rw [hab]; exact Nat.lt_irrefl _)

/-- The state after `openMessage`. -/
def afterOpen (refusal : Bool) (s : State p) : State p :=
  { emitAll s [.itemAdded s.output.length (.message s.ids .inProgress []),
      .partAdded s.ids s.output.length ⟨refusal, ""⟩] with
    ids := s.ids + 1
    message := some s.output.length
    output := s.output ++ [.message s.ids .inProgress [⟨refusal, ""⟩]] }

theorem openMessage_eq (refusal : Bool) (s : State p) :
    openMessage p refusal s = .ok s.output.length (afterOpen refusal s) := by
  have hset : (s.output ++ [Entry.message s.ids .inProgress []]).set s.output.length
      (.message s.ids .inProgress [⟨refusal, ""⟩])
      = s.output ++ [.message s.ids .inProgress [⟨refusal, ""⟩]] := by
    rw [List.set_append_right _ _ (Nat.le_refl _), Nat.sub_self]
    rfl
  rw [afterOpen, ← hset]
  rfl

/-- The message, what it is, and its position. -/
structure Speaking (r : Request) (u : Option (Usage p.Value)) (refusal : Bool) (i : ℕ)
    (s : State p) : Prop where
  running : Running r u s
  index : i = 0
  message : s.message = some 0
  output : ∃ id text, s.output = [.message id .inProgress [⟨refusal, text⟩]]

theorem speaking_afterOpen (refusal : Bool) (h : Running r u s) (hout : s.output = []) :
    Speaking r u refusal s.output.length (afterOpen refusal s) where
  running := by
    refine h.add ?_ ?_ ?_ rfl rfl rfl (Opened.message s.ids refusal [])
    · exact (h.numbered.emitAll _).congr rfl rfl
    · exact emitAll_usage s _
    · exact emitAll_events s _
  index := by rw [hout]; rfl
  message := by rw [afterOpen, hout]; rfl
  output := ⟨s.ids, "", by rw [afterOpen, hout]; rfl⟩

/-- The message has one text more. -/
theorem Speaking.tell {id : ℕ} {refusal : Bool} {text : String} (h : Running r u s)
    (hout : s.output = [.message id .inProgress [⟨refusal, text⟩]]) (t : String) :
    Running r u { emit s (.textDelta id 0 refusal t) with
      output := [.message id .inProgress [⟨refusal, text ++ t⟩]] } := by
  obtain ⟨opened, heq, hlaid⟩ := h.events
  rw [hout] at hlaid
  refine ⟨(h.numbered.emit _).congr rfl rfl, h.usage,
    ⟨opened ++ [.textDelta id 0 refusal t], ?_, Laid.single ?_⟩, ?_, ?_⟩
  · exact (events_emit s _).trans (by rw [heq, List.append_assoc])
  · have hseg := laid_single hlaid
    cases hseg with
    | message id refusal deltas =>
      have hnew := Opened.message (V := p.Value) (i := 0) id refusal (deltas ++ [t])
      rw [joined_snoc, List.map_append] at hnew
      exact hnew
  · intro e he
    obtain rfl := List.mem_singleton.mp he
    exact h.fresh (.message id .inProgress [⟨refusal, text⟩])
      (by rw [hout]; exact List.mem_singleton_self _)
  · exact List.nodup_singleton _

/-- The state is read. -/
theorem spec_get : Spec P (get : M p (State p)) (fun s t => s = t ∧ P t) R := fun _ hs => ⟨rfl, hs⟩

theorem messageIndex_spec (refusal : Bool) :
    Spec (Streaming r flag u) (messageIndex p refusal) (Speaking r u (flag.getD refusal))
      (fun _ => False) := by
  refine Spec.bind spec_get fun s => ?_
  rintro t ⟨rfl, hrun, hlone⟩
  cases hlone with
  | none hmsg hout =>
    rw [hmsg]
    change match openMessage p refusal s with
      | .ok i t => Speaking r u refusal i t
      | .error _ t => False
    rw [openMessage_eq]
    exact speaking_afterOpen refusal hrun hout
  | some id refusal' text hmsg hout =>
    rw [hmsg]
    exact ⟨hrun, rfl, hmsg, id, text, hout⟩

/-- What was said is of the other kind. -/
theorem mixed_iff (refusal : Bool) : refusal ≠ flag.getD refusal ↔ flag = some (!refusal) := by
  cases flag with
  | none => simp
  | some b => cases b <;> cases refusal <;> decide

theorem tracks_say (refusal : Bool) (text : p.Value) :
    Tracks (Streaming r flag u) (say p refusal text)
      (if flag = some (!refusal) then
        .error "Upstream mixed text and refusal in the same message"
      else
        match p.text text with
        | none => .error (p.notText text)
        | some _ => .ok (some refusal))
      (fun _ flag' => Streaming r flag' u) (Running r u) := by
  refine Tracks.after (messageIndex_spec refusal) fun i => ?_
  refine Tracks.after spec_get fun s => ?_
  rintro t ⟨rfl, hrun, rfl, hmsg, id, told, hout⟩
  by_cases hr : flag = some (!refusal)
  · simp only [hout, List.getElem?_cons_zero, if_pos ((mixed_iff refusal).mpr hr), if_pos hr]
    exact hrun
  · have hsame : ¬refusal ≠ flag.getD refusal := mt (mixed_iff refusal).mp hr
    rw [← not_ne_iff.mp hsame] at hout
    simp only [hout, List.getElem?_cons_zero, if_neg hr, ne_eq, not_true_eq_false, if_false]
    cases p.text text with
    | none => exact hrun
    | some t =>
      have hset : s.output.set 0 (.message id .inProgress [⟨refusal, told ++ t⟩])
          = [.message id .inProgress [⟨refusal, told ++ t⟩]] := by
        rw [hout]
        rfl
      have htell := Speaking.tell hrun hout t
      rw [← hset] at htell
      have hidx : [Entry.message id .inProgress [⟨refusal, told⟩]].idxOf
          (.message id .inProgress [⟨refusal, told⟩]) = 0 := List.idxOf_cons_self
      simp only [hidx]
      exact ⟨htell, Lone.some id refusal (told ++ t) hmsg hset⟩

theorem tracks_speak (content refusal : Option p.Value) :
    Tracks (Streaming r flag u) (speak p content refusal) (readText p flag content refusal)
      (fun _ flag' => Streaming r flag' u) (Running r u) := by
  unfold speak readText
  cases (content.filter p.truth).or (refusal.filter p.truth) with
  | none => exact Tracks.pure fun _ h => h
  | some text => exact tracks_say _ text

section Rules

variable {γ : Type} {f : α → M p β} {Q : β → γ → State p → Prop} {x : Except String γ}

/-- An expression is read on both sides. -/
theorem tracks_eval {e : Except String α} {g : α → Except String γ} (hR : ∀ s, P s → R s)
    (h : ∀ a, Tracks P (f a) (g a) Q R) : Tracks P (eval p e >>= f) (e >>= g) Q R := by
  cases e with
  | ok a => exact h a
  | error d => exact hR

/-- A text is added to another one. -/
theorem tracks_add {v : Except String (Option p.Value)} {t : String} {f : String → M p β}
    {g : String → Except String γ} (hR : ∀ s, P s → R s)
    (h : ∀ a b, Tracks P (f a) (g b) Q R) :
    Tracks P (eval p (v.bind (addText p t)) >>= f) (v.bind (addText p "") >>= g) Q R := by
  cases v with
  | error d => exact hR
  | ok v =>
    change Tracks P (eval p (addText p t v) >>= f) (addText p "" v >>= g) Q R
    unfold addText
    cases v.filter p.truth with
    | none => exact h _ _
    | some v =>
      cases hv : p.text v with
      | none =>
        simp only [hv]
        exact hR
      | some a =>
        simp only [hv]
        exact h _ _

theorem tracks_forM {f : α → M p Unit} {g : α → Except String Unit}
    (h : ∀ a, Tracks P (f a) (g a) (fun _ _ => P) R) (l : List α) :
    Tracks P (l.forM f) (l.forM g) (fun _ _ => P) R := by
  induction l with
  | nil => exact Tracks.pure fun _ h => h
  | cons a l ih => exact (h a).bind fun _ _ => ih

end Rules

theorem tracks_callDelta (d : p.Value) :
    Tracks (Streaming r flag u) (callDelta p d) (readCall p d) (fun _ _ => Streaming r flag u)
      (Running r u) := by
  have hmod : ∀ f : List (p.Key × CallState) → List (p.Key × CallState),
      Spec (Streaming r flag u) (modify fun s => { s with calls := f s.calls } : M p Unit)
        (fun _ => Streaming r flag u) (fun _ => False) :=
    fun f s h => h.alike ⟨rfl, rfl, rfl, rfl, rfl⟩ h.1.usage
  have hR : ∀ s, Streaming r flag u s → Running r u s := fun s h => h.1
  refine tracks_eval hR fun index => ?_
  refine tracks_eval hR fun key => ?_
  refine Tracks.after (hmod _) fun _ => ?_
  refine Tracks.after (spec_get.mono fun _ _ h => h.2) fun s => ?_
  refine tracks_add hR fun id _ => ?_
  refine Tracks.after (hmod _) fun _ => ?_
  refine tracks_eval hR fun function => ?_
  refine tracks_add hR fun name _ => ?_
  refine Tracks.after (hmod _) fun _ => ?_
  refine tracks_add hR fun arguments _ => ?_
  exact fun s h => h.alike ⟨rfl, rfl, rfl, rfl, rfl⟩ h.1.usage

theorem tracks_choice (c : p.Value) :
    Tracks (Streaming r flag u) (choice p c) (readChoice p flag c)
      (fun _ flag' => Streaming r flag' u) (Running r u) := by
  have hR : ∀ s, Streaming r flag u s → Running r u s := fun s h => h.1
  refine tracks_eval hR fun index => ?_
  refine Tracks.ite (fun _ => ?_) fun _ => Tracks.pure fun _ h => h
  refine tracks_eval hR fun delta => ?_
  refine tracks_eval hR fun reason => ?_
  refine Tracks.after (T := fun _ => Streaming r flag u)
    (fun s h => h.alike ⟨rfl, rfl, rfl, rfl, rfl⟩ h.1.usage) fun _ => ?_
  refine tracks_eval hR fun content => ?_
  refine tracks_eval hR fun refusal => ?_
  refine (tracks_speak content refusal).bind fun _ flag' => ?_
  refine tracks_eval (fun s h => h.1) fun calls => ?_
  rw [← bind_pure (calls.forM (callDelta p))]
  exact (tracks_forM tracks_callDelta calls).bind fun _ _ => Tracks.pure fun _ h => h

theorem tracks_choices (c : p.Value) :
    Tracks (Streaming r flag u)
      (eval p ((p.get c "choices").bind (iterate p)) >>= fun choices => choices.forM (choice p))
      (readChoices p flag c) (fun _ flag' => Streaming r flag' u) (Running r u) := by
  refine tracks_eval (fun s h => h.1) fun choices => ?_
  induction choices generalizing flag with
  | nil => exact Tracks.pure fun _ h => h
  | cons c choices ih =>
    rw [List.foldlM_cons]
    exact (tracks_choice c).bind fun _ flag' => ih

theorem tracks_noteUsage (c : p.Value) :
    Tracks (Streaming r flag u) (noteUsage p c) (readUsage p u c)
      (fun _ u' => Streaming r flag u') (Running r u) := by
  have hR : ∀ s, Streaming r flag u s → Running r u s := fun s h => h.1
  refine tracks_eval hR fun v => ?_
  cases v.filter p.truth with
  | none => exact Tracks.pure fun _ h => h
  | some v =>
    change Tracks _ (eval p (usage p v) >>= _) ((usage p v).map some) _ _
    cases usage p v with
    | error e => exact hR
    | ok u' => exact fun s h => h.alike ⟨rfl, rfl, rfl, rfl, rfl⟩ rfl

theorem tracks_chunkOf (data : List Char) :
    Tracks (Streaming r flag u) (chunkOf p data) (readChunk p u data)
      (fun c x s => c = x.1 ∧ Streaming r flag x.2 s) (Running r u) := by
  have hR : ∀ s, Streaming r flag u s → Running r u s := fun s h => h.1
  refine tracks_eval hR fun c => ?_
  refine tracks_eval hR fun e => ?_
  cases e.filter p.truth with
  | some e => exact hR
  | none => exact (tracks_noteUsage c).bind fun _ u' => Tracks.pure fun _ h => ⟨rfl, h⟩

/-- The payloads end with the usage that was read last. -/
theorem payloads_spec (data : List (List Char)) (raised : Option String) :
    Spec (Streaming r flag u) (payloads p data raised)
      (fun _ => Running r (lastUsage p flag u data)) (Running r (lastUsage p flag u data)) := by
  induction data generalizing flag u with
  | nil =>
    cases raised with
    | none => exact Spec.pure fun _ h => h.1
    | some e => exact Spec.throw fun _ h => h.1
  | cons d data ih =>
    unfold payloads lastUsage
    by_cases hd : d = "[DONE]".toList
    · rw [if_pos hd, if_pos hd]
      exact Spec.pure fun _ h => h.1
    rw [if_neg hd, if_neg hd]
    have hchunk : Tracks (Streaming r flag u) (chunkOf p d) _ _ _ := tracks_chunkOf d
    cases hc : readChunk p u d with
    | error e =>
      rw [hc] at hchunk
      exact Spec.bind (S := fun _ => Running r u)
        (Spec.bind (S := fun _ _ => False) hchunk.error fun _ => Spec.unreached)
        fun _ => Spec.unreached
    | ok x =>
      obtain ⟨c, u'⟩ := x
      rw [hc] at hchunk
      have hchoices : Tracks (Streaming r flag u') _ _ _ _ := tracks_choices c
      cases hf : readChoices p flag c with
      | error e =>
        rw [hf] at hchoices
        simp only [hf]
        refine Spec.bind (Q := fun _ _ => False) (Spec.bind (hchunk.ok.errs fun _ h => h.elim)
          fun a => ?_) fun _ => Spec.unreached
        rintro s ⟨rfl, hs⟩
        exact hchoices.error s hs
      | ok flag' =>
        rw [hf] at hchoices
        simp only [hf]
        refine Spec.bind (Q := fun _ => Streaming r flag' u')
          (Spec.bind (hchunk.ok.errs fun _ h => h.elim) fun a => ?_) fun _ => ih
        rintro s ⟨rfl, hs⟩
        exact hchoices.ok.errs (fun _ h => h.elim) s hs

/-! ### The calls -/

theorem restoreNamespace_value (item : CallItem) :
    (restoreNamespace r item).value = item.value := by
  unfold restoreNamespace
  induction r.flat generalizing item with
  | nil => rfl
  | cons t l ih =>
    rw [List.foldl_cons, ih]
    split <;> rfl

variable {item : CallItem}

theorem callItem_value {truncated : Bool} {c : CallState}
    (h : callItem p r truncated c = .ok item) : ∃ value, item.value = some value := by
  unfold callItem at h
  split at h
  · split at h
    · cases h
    · cases h
      exact ⟨_, rfl⟩
    · split at h
      · cases h
        exact ⟨_, rfl⟩
      · cases h
  · cases h
    exact ⟨_, rfl⟩

/-- The state after the events of a call. -/
def afterCall (item : CallItem) (value : String) (s : State p) : State p :=
  { emitAll s [.itemAdded s.output.length (.call s.ids { item with value := some "" }),
      .callDelta s.ids s.output.length item.custom value,
      .callDone s.ids s.output.length item.custom value] with
    ids := s.ids + 1
    output := s.output ++ [.call s.ids item] }

theorem Running.call {value : String} (h : Running r u s) (hv : item.value = some value) :
    Running r u (afterCall item value s) := by
  refine h.add ?_ ?_ ?_ rfl rfl rfl (Opened.call s.ids item value hv)
  · exact (h.numbered.emitAll _).congr rfl rfl
  · exact emitAll_usage s _
  · exact emitAll_events s _

theorem publish_ok {truncated : Bool} {c : CallState} {value : String}
    (hc : callItem p r truncated c = .ok item) (hv : item.value = some value) :
    publish p r truncated c s = .ok () (afterCall (restoreNamespace r item) value s) := by
  have hval : (restoreNamespace r item).value.getD "" = value := by
    rw [restoreNamespace_value, hv]
    rfl
  have hset : (s.output ++ [Entry.call s.ids { restoreNamespace r item with value := some "" }]).set
      s.output.length (.call s.ids (restoreNamespace r item))
      = s.output ++ [.call s.ids (restoreNamespace r item)] := by
    rw [List.set_append_right _ _ (Nat.le_refl _), Nat.sub_self]
    rfl
  unfold publish
  rw [hc, afterCall, ← hset, ← hval]
  rfl

theorem keeps_publish (truncated : Bool) (c : CallState) :
    Keeps (Running r u) (publish p r truncated c) := by
  intro s hs
  cases hc : callItem p r truncated c with
  | error e =>
    unfold publish
    rw [hc]
    exact hs
  | ok item =>
    obtain ⟨value, hv⟩ := callItem_value hc
    rw [publish_ok hc hv]
    exact hs.call ((restoreNamespace_value item).trans hv)

/-! ### The end -/

/-- What the loop that closes the items has done before its turn `k`. -/
structure Closing (r : Request) (u : Option (Usage p.Value)) (status : Status) (out : List Entry)
    (opened : List (Event p.Value)) (k : ℕ) (s : State p) : Prop where
  numbered : Numbered s
  usage : s.usage = u
  output : s.output = (out.take k).map (Entry.withStatus status) ++ out.drop k
  events : ∃ closed, s.events = head r ++ (opened ++ closed) ∧
    Laid (fun i entry seg => seg = closing i entry) ((out.take k).map (Entry.withStatus status))
      closed

theorem modify_turned {w : α → α} {out : List α} {k : ℕ} (hk : k < out.length) :
    ((out.take k).map w ++ out.drop k).modify k w
      = (out.take (k + 1)).map w ++ out.drop (k + 1) := by
  refine List.ext_getElem? fun j => ?_
  rw [List.getElem?_modify]
  grind

/-- An item that was opened has a part. -/
theorem close_ok {k : ℕ} {entry : Entry} (hopen : Opened k entry seg)
    (hk : (s.output.modify k (Entry.withStatus status))[k]? = some (entry.withStatus status)) :
    close p status k s = .ok ()
      (emitAll { s with output := s.output.modify k (Entry.withStatus status) }
        (closing k (entry.withStatus status))) := by
  refine Eq.trans (Effect.bind_ok rfl) (Eq.trans (Effect.bind_ok rfl) ?_)
  dsimp only
  rw [hk]
  cases hopen <;> rfl

variable {out : List Entry}

theorem close_spec {opened : List (Event p.Value)} {k : ℕ} (hopen : Laid Opened out opened)
    (hk : k < out.length) :
    Spec (Closing r u status out opened k) (close p status k)
      (fun _ => Closing r u status out opened (k + 1)) R := by
  intro s hs
  obtain ⟨closed, hev, hlaid⟩ := hs.events
  obtain ⟨seg, hseg⟩ := hopen.segment (List.getElem?_eq_getElem hk)
  have hout : s.output.modify k (Entry.withStatus status)
      = (out.take (k + 1)).map (Entry.withStatus status) ++ out.drop (k + 1) := by
    rw [hs.output, modify_turned hk]
  have hget : (s.output.modify k (Entry.withStatus status))[k]?
      = some (out[k].withStatus status) := by
    rw [hout, List.getElem?_append_left (by simp; omega)]
    simp [hk]
  rw [close_ok hseg hget]
  have hnum : Numbered { s with output := s.output.modify k (Entry.withStatus status) } :=
    hs.numbered.congr rfl rfl
  refine ⟨hnum.emitAll _, (emitAll_usage _ _).trans hs.usage, ?_, ?_⟩
  · rw [emitAll_output]
    exact hout
  · refine ⟨closed ++ closing k (out[k].withStatus status), ?_, ?_⟩
    · rw [emitAll_events, ← List.append_assoc, ← List.append_assoc, List.append_assoc (head r),
        ← hev]
      rfl
    · rw [List.take_succ_eq_append_getElem hk, List.map_append, List.map_singleton]
      refine hlaid.snoc ?_
      rw [List.length_map, List.length_take, Nat.min_eq_left (Nat.le_of_lt hk)]

theorem item_plain {e : Event V} {x : ℕ × ℕ} (h : e.item = some x) :
    e.isTerminal = false ∧ (∀ s, e ≠ .created s) ∧ ∀ s, e ≠ .inProgress s := by
  refine ⟨?_, ?_, ?_⟩
  · cases e <;> first | rfl | cases h
  · rintro s rfl
    cases h
  · rintro s rfl
    cases h

/-- The events about the items, for a response whose items are `w` of the ones that were opened. -/
theorem items_of_laid {opened closed : List (Event V)} {last : Snapshot V} {w : Entry → Entry}
    (hid : ∀ e, (w e).id = e.id) (hchannel : ∀ e, (w e).channel = e.channel)
    (htext : ∀ e, (w e).text = e.text) (hlast : last.output = out.map w)
    (hn : (out.map Entry.id).Nodup) (hopen : Laid Opened out opened)
    (hclose : Laid (fun i entry seg => seg = closing i entry ∨ last.status = .failed ∧ seg = [])
      (out.map w) closed) :
    Items (opened ++ closed) last := by
  have hids : (out.map w).map Entry.id = out.map Entry.id := by
    rw [List.map_map]
    exact List.map_congr_left fun e _ => hid e
  refine items_of_told ?_ ?_
  · intro e he
    rw [hlast]
    rcases List.mem_append.mp he with he | he
    · obtain ⟨i, entry, seg, hi, hseg, he⟩ := hopen.mem he
      refine ⟨i, w entry, by rw [List.getElem?_map, hi]; rfl, ?_⟩
      rw [hid, opened_item hseg he]
    · obtain ⟨i, entry, seg, hi, hseg, he⟩ := hclose.mem he
      exact ⟨i, entry, hi, closing_item (mem_of_closed hseg he)⟩
  · intro i entry hi
    rw [hlast] at hi
    have hc := Laid.filter Entry.id (fun e => e.item.map Prod.fst)
      (fun i x seg hseg b hb => by rw [closing_item (mem_of_closed hseg hb)]; rfl) hclose
      (hids ▸ hn) hi
    rw [List.getElem?_map] at hi
    obtain ⟨before, hbefore, rfl⟩ := Option.map_eq_some_iff.mp hi
    have ho := Laid.filter Entry.id (fun e => e.item.map Prod.fst)
      (fun i x seg hseg b hb => by rw [opened_item hseg hb]; rfl) hopen hn hbefore
    rw [about, List.filter_append, hid]
    rw [hid] at hc
    exact Told.mk before _ _ ho (hchannel before) (htext before) hc

theorem withStatus_id (status : Status) (e : Entry) : (e.withStatus status).id = e.id := by
  cases e <;> rfl

theorem withStatus_channel (status : Status) (e : Entry) :
    (e.withStatus status).channel = e.channel := by
  cases e <;> rfl

theorem withStatus_text (status : Status) (e : Entry) : (e.withStatus status).text = e.text := by
  cases e <;> rfl

theorem laid_plain {S : ℕ → Entry → List (Event V) → Prop}
    (hS : ∀ i entry seg, S i entry seg → ∀ e ∈ seg, e.item = some (entry.id, i))
    {t : List (Event V)} (h : Laid S out t) {e : Event V} (he : e ∈ t) :
    e.isTerminal = false ∧ (∀ s, e ≠ .created s) ∧ ∀ s, e ≠ .inProgress s := by
  obtain ⟨i, entry, seg, -, hseg, he⟩ := h.mem he
  exact item_plain (hS i entry seg hseg e he)

variable {opened closed : List (Event p.Value)}

/-- The terminal event ends a well formed stream. -/
theorem wellFormed_emit {last : Snapshot p.Value} {w : Entry → Entry} (hid : ∀ e, (w e).id = e.id)
    (hchannel : ∀ e, (w e).channel = e.channel) (htext : ∀ e, (w e).text = e.text)
    (hlast : last.output = out.map w) (hn : (out.map Entry.id).Nodup)
    (hopen : Laid Opened out opened)
    (hclose : Laid (fun i entry seg => seg = closing i entry ∨ last.status = .failed ∧ seg = []) (out.map w) closed)
    (hstatus : last.status = .completed ∨ last.status = .incomplete ∨ last.status = .failed)
    (hnum : Numbered s) (hev : s.events = head r ++ (opened ++ closed)) :
    WellFormed (emit s (.terminal last)).emitted where
  numbers := (hnum.emit _).numbers
  sequence := by
    refine ⟨start r, opened ++ closed, last, ?_, ?_, hstatus, ?_,
      items_of_laid hid hchannel htext hlast hn hopen hclose⟩
    · exact (events_emit s _).trans (by rw [hev, List.append_assoc]; rfl)
    · intro e he
      rcases List.mem_append.mp he with he | he
      · exact laid_plain (fun i entry seg h e he => opened_item h he) hopen he
      · exact laid_plain (fun i entry seg h e he => closing_item (mem_of_closed h he)) hclose he
    · rw [hlast, List.map_map]
      exact (List.map_congr_left fun e _ => hid e : out.map (Entry.id ∘ w) = _) ▸ hn

/-- There is no terminal event. -/
theorem not_wellFormed (hopen : Laid Opened out opened)
    (hclosed : ∀ e ∈ closed, e.isTerminal = false) (hev : s.events = head r ++ (opened ++ closed)) :
    ¬WellFormed s.emitted := by
  rintro ⟨-, first, events, last, hseq, -⟩
  have hlast : .terminal last ∈ s.events := by
    rw [State.events, hseq]
    simp
  rw [hev] at hlast
  rcases List.mem_append.mp hlast with h | h
  · simp [head] at h
  · have hplain : (Event.terminal last).isTerminal = false := by
      rcases List.mem_append.mp h with h | h
      · exact (laid_plain (fun i entry seg h e he => opened_item h he) hopen h).1
      · exact hclosed _ h
    cases hplain

/-- The stream has ended as it has to. -/
def Done (u : Option (Usage p.Value)) (s : State p) : Prop :=
  written p u ∧ WellFormed s.emitted

/-- The stream has ended without a terminal event. -/
def Cut (u : Option (Usage p.Value)) (s : State p) : Prop :=
  s.usage = u ∧ written p u = false ∧ ¬WellFormed s.emitted

theorem finalStatus_cases (finish : String) :
    finalStatus finish = .incomplete ∨ finalStatus finish = .completed := by
  unfold finalStatus
  split
  · exact Or.inl rfl
  · exact Or.inr rfl

theorem conclude_spec :
    Spec (Running r u) (conclude p r) (fun _ => Done u) (fun s => Running r u s ∨ Cut u s) := by
  refine Spec.bind spec_get fun s => ?_
  cases s.finish with
  | none => exact Spec.throw fun t ht => Or.inl ht.2
  | some finish =>
    refine Spec.bind spec_get fun s => ?_
    refine Spec.bind (Q := fun _ => Running r u) ?_ fun _ => ?_
    · refine (keeps_forM (keeps_publish _) _).conseq (fun t ht => ht.2.2) (fun _ _ h => h) ?_
      exact fun _ h => Or.inl h
    refine Spec.bind spec_get fun s => ?_
    rintro t ⟨rfl, hrun⟩
    obtain ⟨opened, hev, hopen⟩ := hrun.events
    have hstart : Closing r u (finalStatus ((p.text finish).getD "")) s.output opened 0 s :=
      ⟨hrun.numbered, hrun.usage, by simp, [], by rw [hev, List.append_nil],
        by simpa using Laid.nil⟩
    have hloop := spec_range (R := fun s => Running r u s ∨ Cut u s)
      (P := Closing r u (finalStatus ((p.text finish).getD "")) s.output opened) s.output.length
      fun k hk => close_spec hopen hk
    refine Spec.bind hloop (fun _ => ?_) s hstart
    refine Spec.bind spec_get fun t => ?_
    rintro t' ⟨rfl, hclosed⟩
    obtain ⟨closed, hev, hclose⟩ := hclosed.events
    have hout := hclosed.output
    rw [List.take_length] at hout hclose
    rw [List.drop_length, List.append_nil] at hout
    cases hw : written p t.usage with
    | true =>
      rw [terminal_ok hw]
      refine ⟨hclosed.usage ▸ hw, wellFormed_emit (withStatus_id _) (withStatus_channel _)
        (withStatus_text _) hout hrun.nodup hopen ?_ ?_ hclosed.numbered hev⟩
      · exact hclose.mono fun _ _ _ h => Or.inl h
      · exact (finalStatus_cases _).elim (fun h => Or.inr (Or.inl h)) Or.inl
    | false =>
      rw [terminal_error hw]
      refine Or.inr ⟨hclosed.usage, hclosed.usage ▸ hw, not_wellFormed hopen (fun e he => ?_) hev⟩
      refine (laid_plain (fun i entry seg h e he => ?_) hclose he).1
      rw [h] at he
      exact closing_item he

/-- The terminal event of a response that has failed. -/
theorem handler_spec (e : String) :
    Spec (fun s => Running r u s ∨ Cut u s)
      (do event p (.terminal (snapshot p r (← get) .failed (some e) none))) (fun _ => Done u)
      (Cut u) := by
  refine Spec.bind spec_get fun s => ?_
  rintro t ⟨rfl, hs⟩
  have hu : s.usage = u := hs.elim (fun h => h.usage) fun h => h.1
  cases hw : written p s.usage with
  | true =>
    have hrun : Running r u s := hs.resolve_right fun h => by
      rw [hu, h.2.1] at hw
      cases hw
    obtain ⟨opened, hev, hopen⟩ := hrun.events
    rw [terminal_ok hw]
    refine ⟨hu ▸ hw, wellFormed_emit (w := id) (fun _ => rfl) (fun _ => rfl) (fun _ => rfl)
      (List.map_id _).symm hrun.nodup hopen ?_ (Or.inr (Or.inr rfl)) hrun.numbered
      (by rw [List.append_nil]; exact hev)⟩
    exact laid_empty (fun _ _ => Or.inr ⟨rfl, rfl⟩) _
  | false =>
    rw [terminal_error hw]
    refine ⟨hu, hu ▸ hw, ?_⟩
    rcases hs with hrun | hs
    · obtain ⟨opened, hev, hopen⟩ := hrun.events
      have hend : ∀ e ∈ ([] : List (Event p.Value)), e.isTerminal = false := fun e he => by cases he
      exact not_wellFormed (s := s) hopen hend (by rw [List.append_nil]; exact hev)
    · exact hs.2.2

theorem streaming_start (r : Request) :
    Streaming r none none (emitAll (State.init p) (head r)) := by
  have hinit : Numbered (State.init p) := ⟨rfl, rfl⟩
  refine ⟨⟨hinit.emitAll _, rfl, ⟨[], ?_, Laid.nil⟩, ?_, List.nodup_nil⟩, Lone.none rfl rfl⟩
  · rw [emitAll_events, List.append_nil]
    rfl
  · intro e he
    cases he

theorem streamChatResponse_spec (data : List (List Char)) (raised : Option String) :
    Spec (fun s => s = State.init p) (streamChatResponse p r data raised)
      (fun _ => Done (lastUsage p none none data)) (Cut (lastUsage p none none data)) := by
  refine Spec.tryCatch ?_ handler_spec
  rintro s rfl
  have hbody : Spec (Streaming r none none) (payloads p data raised >>= fun _ => conclude p r)
      (fun _ => Done (lastUsage p none none data)) _ :=
    Spec.bind ((payloads_spec data raised).errs fun _ h => Or.inl h) fun _ => conclude_spec
  exact hbody _ (streaming_start r)

theorem ended_cases (p : Python) (r : Request) (data : List (List Char)) (raised : Option String) :
    Done (lastUsage p none none data) (ended p r data raised) ∨
      Cut (lastUsage p none none data) (ended p r data raised) := by
  have h := streamChatResponse_spec (r := r) data raised (State.init p) rfl
  unfold ended
  cases hs : streamChatResponse p r data raised (State.init p) with
  | ok a t =>
    rw [hs] at h
    exact Or.inl h
  | error e t =>
    rw [hs] at h
    exact Or.inr h

/-- The events of a response are well formed exactly if the usage that is read last can be
written. -/
theorem wellFormed_iff (p : Python) (r : Request) (data : List (List Char))
    (raised : Option String) :
    WellFormed (ended p r data raised).emitted ↔
      written p (lastUsage p none none data) = true := by
  rcases ended_cases p r data raised with h | h
  · exact iff_of_true h.2 h.1
  · exact iff_of_false h.2.2 (by rw [h.2.1]; exact Bool.false_ne_true)

end Stream

/-! ## A usage that cannot be written -/

inductive Json where
  | null
  | bool (b : Bool)
  | int (z : ℤ)
  | str (s : String)
  | list (l : List Json)
  | dict (keys : List String) (values : List Json)

mutual

/-- No number has more digits than `sys.get_int_max_str_digits()`, which is 4300. -/
def Json.writes : Json → Bool
  | .int z => decide (z.natAbs < 10 ^ 4300)
  | .list l | .dict _ l => writesAll l
  | _ => true

def Json.writesAll : List Json → Bool
  | [] => true
  | x :: l => x.writes && writesAll l

end

namespace Json

def get : Json → String → Except String (Option Json)
  | .dict keys values, key => .ok ((keys.zip values).lookup key)
  | _, _ => .error "object has no attribute 'get'"

def truth : Json → Bool
  | .null => false
  | .bool b => b
  | .int z => z ≠ 0
  | .str s => s ≠ ""
  | .list l | .dict _ l => !l.isEmpty

def iter : Json → Except String (List Json)
  | .list l => .ok l
  | .dict keys _ => .ok (keys.map .str)
  | .str s => .ok (s.toList.map fun c => .str (String.singleton c))
  | _ => .error "object is not iterable"

def number : Json → Option ℤ
  | .bool b => some (if b then 1 else 0)
  | .int z => some z
  | _ => none

def add : Json → Json → Except String Json
  | .str s, .str t => .ok (.str (s ++ t))
  | .list l, .list m => .ok (.list (l ++ m))
  | a, b =>
    match a.number, b.number with
    | some x, some y => .ok (.int (x + y))
    | _, _ => .error "unsupported operand type(s) for +"

def text : Json → Option String
  | .str s => some s
  | _ => none

/-- A key of a dictionary; `True` is the key 1. -/
def key (x : Json) : Except String (Option ℤ ⊕ String) :=
  match x.text, x.number, x with
  | some s, _, _ => .ok (.inr s)
  | none, some z, _ => .ok (.inl (some z))
  | none, none, .null => .ok (.inl none)
  | _, _, _ => .error "unhashable type"

end Json

/-- `{"usage": {"prompt_tokens": 99…9, "completion_tokens": 1}}`, with 4300 nines. -/
def bigChunk : List Char :=
  "\x7b\"usage\": \x7b\"prompt_tokens\": ".toList ++ List.replicate 4300 '9' ++
    ", \"completion_tokens\": 1\x7d\x7d".toList

def bigCount : ℤ := 10 ^ 4300 - 1

/-- The chunk as it is read, when the prompt has `z` tokens. -/
def chunkValue (z : ℤ) : Json :=
  .dict ["usage"] [.dict ["prompt_tokens", "completion_tokens"] [.int z, .int 1]]

@[irreducible] def Json.loads (data : List Char) : Except String Json :=
  if data = bigChunk then .ok (chunkValue bigCount) else .error "Expecting value"

theorem loads_bigChunk : Json.loads bigChunk = .ok (chunkValue bigCount) := by
  unfold Json.loads
  generalize bigChunk = data
  exact if_pos rfl

/-- The language, as far as one chunk shows it. -/
def python : Python where
  Value := Json
  Key := Option ℤ ⊕ String
  sameKey := inferInstance
  loads := Json.loads
  input _ := .ok none
  writes := Json.writes
  unwritten := "Exceeds the limit (4300 digits) for integer string conversion"
  get := Json.get
  truth := Json.truth
  iter := Json.iter
  str x := x.text.getD ""
  text := Json.text
  notText _ := "can only concatenate str to str"
  add := Json.add
  zero := .int 0
  isZero x := x.number = some 0
  key := Json.key
  keyZero := .inl (some 0)

def chunkUsage (z : ℤ) : Usage Json := ⟨.int z, .int 0, .int 1, .int 0, .int (z + 1)⟩

theorem lastUsage_bigChunk :
    lastUsage python none none [bigChunk, "[DONE]".toList] = some (chunkUsage bigCount) := by
  have hread : readChunk python none bigChunk
      = .ok (chunkValue bigCount, some (chunkUsage bigCount)) := by
    have hloads : python.loads bigChunk = .ok (chunkValue bigCount) := loads_bigChunk
    unfold readChunk
    rw [hloads]
    generalize bigCount = z
    rfl
  have hdone : bigChunk ≠ "[DONE]".toList := by
    intro h
    have hhead := congrArg List.head? h
    revert hhead
    decide
  unfold lastUsage
  rw [if_neg hdone, hread]
  generalize bigCount = z
  rfl

/-- The stream of such a chunk has no terminal event. -/
theorem unwritten_usage :
    ¬WellFormed
      (ended python ⟨none, true, [], [], rfl⟩ [bigChunk, "[DONE]".toList] none).emitted := by
  have hcut := ended_cases python ⟨none, true, [], [], rfl⟩ [bigChunk, "[DONE]".toList] none
  rw [lastUsage_bigChunk] at hcut
  have hw : written python (some (chunkUsage bigCount)) = false := by decide +kernel
  rcases hcut with h | h
  · cases hw.symm.trans h.1
  · exact h.2.2

end SparkDeck.EventStream
