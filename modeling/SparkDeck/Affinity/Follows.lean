import Mathlib.Tactic.IntervalCases
import SparkDeck.Affinity.Table

/-!
# Affinity follows a conversation

`lookup` of the keys of a body, after any calls: the longest prefix of its messages that someone has
talked in, whose target the table still holds and that target is a candidate, decides
(`lookup_longest`). A body that goes on from one that was remembered has this prefix among its own.

* `affinity_follows`: digests are equal only for one conversation; the answer is that of the longest
  matching prefix, which is the remembered one when nothing longer matches; the table stays within
  its capacity and answers with fresh candidates only.
* `closing_system`: a body that ends with a system message has no keys, so what was remembered for
  its beginning is not looked up.
-/

namespace SparkDeck.Affinity

open JsonText

variable {σ δ τ : Type} [DecidableEq σ] [DecidableEq δ] [DecidableEq τ]

/-- The entry of `key` is still there when `lookup` reads the clock. -/
def Live (s : Settings) (calls : List (Call σ δ τ)) (now : ℚ) (key : σ × δ) : Prop :=
  ((after s .empty calls).expire s now).get key ≠ none

def hasAssistant (body : Fields) : Bool := ((messagesOf body).getD []).any isAssistant

/-- The prefix up to position `i` decides for `target`. -/
structure Matches (sha256 : List UInt8 → δ) (tooDeep : Json → Bool) (s : Settings)
    (calls : List (Call σ δ τ)) (scope : σ) (body : Fields) (endpoint : String)
    (candidates : List τ) (now : ℚ) (i : ℕ) (target : τ) : Prop where
  talked : (leading body (i + 1)).any talks
  candidate : target ∈ candidates
  known : ∃ key, (keys sha256 tooDeep body endpoint)[i]? = some key ∧
    remembered (scope, key.1) calls = some target ∧ Live s calls now (scope, key.1)

variable {sha256 : List UInt8 → δ} {tooDeep : Json → Bool} {s : Settings}
  {calls : List (Call σ δ τ)} {scope : σ} {body : Fields} {endpoint : String}
  {candidates : List τ} {now : ℚ}

/-- What `lookup` can use is what matches. -/
theorem matches_iff_usable (hassistant : hasAssistant body) {i : ℕ} {target : τ} :
    Matches sha256 tooDeep s calls scope body endpoint candidates now i target ↔
      ∃ key, (keys sha256 tooDeep body endpoint)[i]? = some key ∧
        ((after s .empty calls).expire s now).usable scope candidates key =
          some ((scope, key.1), target) := by
  have hsaid := (held_reachable s calls).said
  have hstrength : ∀ key, (keys sha256 tooDeep body endpoint)[i]? = some key →
      (0 < key.2 ↔ (leading body (i + 1)).any talks) := by
    intro key hkey
    obtain ⟨messages, -, -, hm, -, -, -⟩ := keys_spec hkey
    unfold hasAssistant at hassistant
    rw [strength_pos hm hkey, leading_eq hm]
    rw [hm] at hassistant
    exact ⟨And.right, fun htalk => ⟨hassistant, htalk⟩⟩
  constructor
  · rintro ⟨htalk, hcandidate, key, hkey, hrem, hlive⟩
    obtain ⟨entry, hentry⟩ := Option.ne_none_iff_exists'.mp hlive
    have hserved := (hsaid _ _ (get_expire.mp hentry).1).1
    cases hrem.symm.trans hserved
    exact ⟨key, hkey, usable_eq_some.mpr
      ⟨(hstrength key hkey).mpr htalk, rfl, hcandidate, entry.2, hentry⟩⟩
  · rintro ⟨key, hkey, hu⟩
    obtain ⟨hpos, -, hcandidate, touched, hget⟩ := usable_eq_some.mp hu
    have hserved := (hsaid _ _ (get_expire.mp hget).1).1
    refine ⟨(hstrength key hkey).mp hpos, hcandidate, key, hkey, hserved, ?_⟩
    unfold Live
    rw [hget]
    exact Option.some_ne_none _

omit [DecidableEq δ] in
/-- Among the keys that count, the stronger is the longer prefix. -/
theorem le_of_strength {i j : ℕ} {k₁ k₂ : δ × ℕ}
    (h₁ : (keys sha256 tooDeep body endpoint)[i]? = some k₁)
    (h₂ : (keys sha256 tooDeep body endpoint)[j]? = some k₂) (hpos : 0 < k₁.2)
    (hle : k₂.2 ≤ k₁.2) : j ≤ i := by
  by_contra hlt
  obtain ⟨hi, rfl⟩ := List.getElem?_eq_some_iff.mp h₁
  obtain ⟨hj, rfl⟩ := List.getElem?_eq_some_iff.mp h₂
  have hpair : (keys sha256 tooDeep body endpoint).Pairwise fun a b => 0 < a.2 → a.2 < b.2 :=
    keys_increasing
  have hmore := List.pairwise_iff_getElem.mp hpair i j hi hj (Nat.lt_of_not_le hlt) hpos
  omega

theorem lookup_longest (hassistant : hasAssistant body) (touched : ℚ) (target : τ) :
    ((after s .empty calls).lookup s scope (keys sha256 tooDeep body endpoint) candidates now
        touched).answer = some target ↔
      ∃ i, Matches sha256 tooDeep s calls scope body endpoint candidates now i target ∧
        ∀ j other, Matches sha256 tooDeep s calls scope body endpoint candidates now j other →
          j ≤ i := by
  have hanswer : ∀ served, (∃ k, ((after s .empty calls).expire s now).find scope
        (keys sha256 tooDeep body endpoint) candidates = some (k, served)) →
      ∃ i, Matches sha256 tooDeep s calls scope body endpoint candidates now i served ∧
        ∀ j other, Matches sha256 tooDeep s calls scope body endpoint candidates now j other →
          j ≤ i := by
    rintro served ⟨k, hf⟩
    obtain ⟨x, hx, hu, hbest⟩ := find_eq_some hf
    obtain ⟨i, hi⟩ := List.mem_iff_getElem?.mp hx
    obtain ⟨hpos, hk, -, -⟩ := usable_eq_some.mp hu
    rw [hk] at hu
    refine ⟨i, (matches_iff_usable hassistant).mpr ⟨x, hi, hu⟩, fun j other hm => ?_⟩
    obtain ⟨y, hj, hy⟩ := (matches_iff_usable hassistant).mp hm
    refine le_of_strength hi hj hpos (hbest y (List.mem_iff_getElem?.mpr ⟨j, hj⟩) ?_)
    rw [hy]
    exact Option.some_ne_none _
  constructor
  · intro h
    cases hf : ((after s .empty calls).expire s now).find scope
        (keys sha256 tooDeep body endpoint) candidates with
    | none =>
      rw [lookup_of_none hf] at h
      cases h
    | some found =>
      obtain ⟨k, served⟩ := found
      rw [lookup_of_some hf] at h
      obtain rfl : served = target := Option.some.inj h
      exact hanswer served ⟨k, hf⟩
  · rintro ⟨i, hm, hlongest⟩
    obtain ⟨key, hi, hu⟩ := (matches_iff_usable hassistant).mp hm
    cases hf : ((after s .empty calls).expire s now).find scope
        (keys sha256 tooDeep body endpoint) candidates with
    | none =>
      rw [find_eq_none hf key (List.mem_iff_getElem?.mpr ⟨i, hi⟩)] at hu
      cases hu
    | some found =>
      obtain ⟨k, served⟩ := found
      rw [lookup_of_some hf]
      obtain ⟨i', hm', hlongest'⟩ := hanswer served ⟨k, hf⟩
      obtain rfl : i = i' := Nat.le_antisymm (hlongest' i target hm) (hlongest i' served hm')
      obtain ⟨x, hx, hux⟩ := (matches_iff_usable hassistant).mp hm'
      cases hi.symm.trans hx
      rw [hu] at hux
      exact congrArg some (Prod.mk.inj (Option.some.inj hux)).2.symm

/-! ## The prefix that was remembered -/

omit [DecidableEq τ] in
theorem remembered_append {key : σ × δ} (calls post : List (Call σ δ τ))
    (h : ∀ c ∈ post, ∀ x, c.remembers = some x → x.1 ≠ key) :
    remembered key (calls ++ post) = remembered key calls := by
  induction post generalizing calls with
  | nil => rw [List.append_nil]
  | cons c post ih =>
    have hc : remembered key (calls ++ [c]) = remembered key calls := by
      rw [remembered_concat]
      cases hr : c.remembers with
      | none => rfl
      | some x => exact if_neg (h c List.mem_cons_self x hr)
    have hrest := ih (calls ++ [c]) fun d hd => h d (List.mem_cons_of_mem c hd)
    rwa [List.append_assoc, hc] at hrest

/-- The number of messages of a body. -/
def size (body : Fields) : ℕ := ((messagesOf body).getD []).length

omit [DecidableEq δ] in
/-- The last key of a body is that of the same messages in a body that goes on from it. -/
theorem last_key {b₁ b₂ : Fields} {e₁ e₂ : String} {k : δ × ℕ} (hext : Extends b₁ b₂)
    (h₁ : (keys sha256 tooDeep b₁ e₁).getLast? = some k)
    (h₂ : keys sha256 tooDeep b₂ e₂ ≠ []) :
    0 < size b₁ ∧ ∃ strength, (keys sha256 tooDeep b₂ e₂)[size b₁ - 1]? = some (k.1, strength) := by
  have hne : keys sha256 tooDeep b₁ e₁ ≠ [] := by
    intro hnil
    rw [hnil] at h₁
    cases h₁
  have hext' := hext
  obtain ⟨-, ms, ns, hms, hns, hsame⟩ := hext'
  have hlen₁ := keys_length hne hms
  have hlen₂ := keys_length h₂ hns
  have hcut := hsame.length_eq
  rw [List.length_take] at hcut
  have hpos : 0 < ms.length := hlen₁ ▸ List.length_pos_iff.mpr hne
  have hsize : size b₁ = ms.length := by
    unfold size
    rw [hms]
    rfl
  rw [hsize]
  have hin : ms.length - 1 < (keys sha256 tooDeep b₂ e₂).length := by omega
  rw [List.getLast?_eq_getElem?, hlen₁] at h₁
  have hget := List.getElem?_eq_getElem hin
  refine ⟨hpos, ((keys sha256 tooDeep b₂ e₂)[ms.length - 1]).2, ?_⟩
  rw [hget, digest_of_extends hext h₁ hget]

/-! ## Conversations -/

def message (role content : String) : Json :=
  .object [(ascii "role", .text (ascii role)), (ascii "content", .text (ascii content))]

def chat (messages : List Json) : Fields := [(ascii "messages", .array messages)]

def opening : Fields := chat [message "user" "hi"]

def answered : Fields := chat [message "user" "hi", message "assistant" "yes"]

def closed : Fields :=
  chat [message "user" "hi", message "assistant" "yes", message "system" "stop"]

def hour : Settings := ⟨3600, 8⟩

def chatKeys (body : Fields) : List (List UInt8 × ℕ) :=
  keys id (fun _ => false) body "chat/completions"

/-- Member 7 served the opening turn. -/
def served : List (Call ℕ (List UInt8) ℕ) := [.remember 0 (chatKeys opening) 7 0 0]

def openingDigest : List UInt8 := ((chatKeys opening).getLast?.map Prod.fst).getD []

theorem extends_answered : Extends opening answered :=
  ⟨rfl, _, _, rfl, rfl, List.Forall₂.cons rfl List.Forall₂.nil⟩

theorem extends_closed : Extends opening closed :=
  ⟨rfl, _, _, rfl, rfl, List.Forall₂.cons rfl List.Forall₂.nil⟩

/-! ## The whole -/

theorem affinity_follows (hsha : Function.Injective sha256) :
    (∀ b₁ b₂ e₁ e₂ i j k₁ k₂, (keys sha256 tooDeep b₁ e₁)[i]? = some k₁ →
      (keys sha256 tooDeep b₂ e₂)[j]? = some k₂ → k₁.1 = k₂.1 →
      i = j ∧ SameMessage (context b₁) (context b₂) ∧
        List.Forall₂ SameMessage (leading b₁ (i + 1)) (leading b₂ (i + 1))) ∧
    (∀ (s : Settings) (pre post : List (Call σ δ τ)) (scope : σ) (b₁ b₂ : Fields)
      (e₁ e₂ : String) (k : δ × ℕ) (target : τ) (now₁ touched₁ now touched : ℚ)
      (candidates : List τ),
      (keys sha256 tooDeep b₁ e₁).getLast? = some k → keys sha256 tooDeep b₂ e₂ ≠ [] →
      Extends b₁ b₂ → hasAssistant b₂ = true →
      (∀ c ∈ post, ∀ x, c.remembers = some x → x.1 ≠ (scope, k.1)) →
      let calls := pre ++ .remember scope (keys sha256 tooDeep b₁ e₁) target now₁ touched₁ :: post
      let answer := ((after s .empty calls).lookup s scope (keys sha256 tooDeep b₂ e₂) candidates
        now touched).answer
      let Match := Matches sha256 tooDeep s calls scope b₂ e₂ candidates now
      Live s calls now (scope, k.1) →
      (∀ served, answer = some served ↔
        ∃ i, Match i served ∧ ∀ j other, Match j other → j ≤ i) ∧
      (target ∈ candidates → (leading b₂ (size b₁)).any talks = true →
        Match (size b₁ - 1) target ∧
        ((∀ j other, Match j other → j < size b₁) → answer = some target))) ∧
    ∀ (s : Settings) (calls : List (Call σ δ τ)),
      (after s .empty calls).entries.length ≤ s.capacity ∧
      ∀ scope keys candidates now touched target,
        ((after s .empty calls).lookup s scope keys candidates now touched).answer = some target →
        target ∈ candidates ∧ ∃ x ∈ keys, ∃ touch, remembered (scope, x.1) calls = some target ∧
          lastTouch s (scope, x.1) none .empty calls = some touch ∧ now - touch < s.ttl := by
  refine ⟨?_, ?_, ?_⟩
  · intro b₁ b₂ e₁ e₂ i j k₁ k₂ h₁ h₂ h
    exact digest_inj hsha h₁ h₂ h
  · intro s pre post scope b₁ b₂ e₁ e₂ k target now₁ touched₁ now touched candidates hlast hkeys
      hext hassistant hpost calls answer Match hlive
    refine ⟨lookup_longest hassistant touched, fun hcandidate htalked => ?_⟩
    obtain ⟨hpos, strength, hkey⟩ := last_key hext hlast hkeys
    have hrem : remembered (scope, k.1) calls = some target := by
      have hsplit : calls = (pre ++ [.remember scope (keys sha256 tooDeep b₁ e₁) target now₁
          touched₁]) ++ post := by simp [calls]
      rw [hsplit, remembered_append _ _ hpost, remembered_concat]
      unfold Call.remembers
      dsimp only
      rw [hlast]
      exact if_pos rfl
    have hmatch : Match (size b₁ - 1) target := by
      refine ⟨?_, hcandidate, (k.1, strength), hkey, hrem, hlive⟩
      rwa [Nat.sub_add_cancel hpos]
    refine ⟨hmatch, fun hnone => (lookup_longest hassistant touched target).mpr
      ⟨size b₁ - 1, hmatch, fun j other hm => ?_⟩⟩
    have hj := hnone j other hm
    omega
  · intro s calls
    exact ⟨(held_reachable s calls).bounded, fun _ _ _ _ _ _ h => lookup_fresh h⟩

/-- Member 7 is asked again, and answers are found for a conversation only while it goes on. -/
theorem affinity_follows_turn :
    ((after hour .empty served).lookup hour 0 (chatKeys answered) [7] 1 1).answer = some 7 := by
  have hlast : (keys id (fun _ => false) opening "chat/completions").getLast? =
      some (openingDigest, 0) := by decide +kernel
  have hkeys : keys id (fun _ => false) answered "chat/completions" ≠ [] := by decide +kernel
  have hlive : Live hour served 1 (0, openingDigest) := by
    unfold Live
    decide +kernel
  have hall := @affinity_follows ℕ (List UInt8) ℕ _ _ _ id (fun _ => false) Function.injective_id
  have hfollows := (hall.2.1 hour [] [] 0 opening answered "chat/completions" "chat/completions"
    (openingDigest, 0) 7 0 0 1 1 [7] hlast hkeys extends_answered (by decide)
    (fun _ hc => absurd hc List.not_mem_nil) hlive).2 (List.mem_singleton.mpr rfl) (by decide)
  refine hfollows.2 fun j other hm => ?_
  obtain ⟨key, hkey, hrem, -⟩ := hm.known
  have hlength : (keys id (fun _ => false) answered "chat/completions").length = 2 := by
    decide +kernel
  have hsecond : ((keys id (fun _ => false) answered "chat/completions")[1]?.bind fun key =>
      remembered (0, key.1) served) = none := by decide +kernel
  have hj : j < 2 := hlength ▸ (List.getElem?_eq_some_iff.mp hkey).1
  have hone : size opening = 1 := by decide
  rw [hone]
  by_contra hge
  obtain rfl : j = 1 := by omega
  rw [hkey] at hsecond
  cases hrem.symm.trans hsecond

/-- The conversation goes on and its target is a candidate, but a closing system message leaves
it without keys. -/
theorem closing_system :
    Extends opening closed ∧ hasAssistant closed = true ∧
      (chatKeys opening).getLast? = some (openingDigest, 0) ∧ Live hour served 1 (0, openingDigest) ∧
      (leading closed (size opening)).any talks = true ∧
      remembered (0, openingDigest) served = some 7 ∧
      ((after hour .empty served).lookup hour 0 (chatKeys closed) [7] 1 1).answer = none := by
  refine ⟨extends_closed, by decide, by decide +kernel, ?_, by decide, by decide +kernel,
    by decide +kernel⟩
  unfold Live
  decide +kernel

end SparkDeck.Affinity
