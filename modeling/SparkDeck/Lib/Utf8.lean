import Mathlib.Data.List.Basic

/-!
# Decoding UTF-8 piece by piece

An incremental decoder keeps the bytes of a character that is not complete yet (`truncated`), and
puts the next piece behind them.

* `decode_encode`: of the bytes of a text, cut anywhere, the decoder gives the characters that are
  complete and keeps the rest.
* `Cut`: what it keeps is the start of the character that comes next.
-/

namespace Utf8

def encode (text : List Char) : List UInt8 := text.flatMap String.utf8EncodeChar

/-- A byte that continues a character. -/
def isContinuation (b : UInt8) : Bool := 0x80 ≤ b.toNat && b.toNat ≤ 0xbf

/-- Whether `b` may be second after `a`: no overlong form, no surrogate, nothing past U+10FFFF. -/
def isSecond (a b : UInt8) : Bool :=
  isContinuation b && (a.toNat != 0xe0 || 0xa0 ≤ b.toNat) && (a.toNat != 0xed || b.toNat ≤ 0x9f) &&
    (a.toNat != 0xf0 || 0x90 ≤ b.toNat) && (a.toNat != 0xf4 || b.toNat ≤ 0x8f)

/-- The bytes are the start of a character that more bytes complete. -/
def truncated : List UInt8 → Bool
  | [a] => 0xc2 ≤ a.toNat && a.toNat ≤ 0xf4
  | [a, b] => 0xe0 ≤ a.toNat && a.toNat ≤ 0xf4 && isSecond a b
  | [a, b, c] => 0xf0 ≤ a.toNat && a.toNat ≤ 0xf4 && isSecond a b && isContinuation c
  | _ => false

/-- The characters the bytes begin with and what is kept; or what cannot be decoded. There is a
character for each unit of fuel. -/
def decodeWith : ℕ → List UInt8 → Except (List UInt8) (List Char × List UInt8)
  | _, [] => .ok ([], [])
  | 0, bytes => .error bytes
  | fuel + 1, bytes =>
    match bytes.toByteArray.utf8DecodeChar? 0 with
    | some c => (decodeWith fuel (bytes.drop c.utf8Size)).map fun (text, kept) => (c :: text, kept)
    | none => if truncated bytes then .ok ([], bytes) else .error bytes

def decode (bytes : List UInt8) : Except (List UInt8) (List Char × List UInt8) :=
  decodeWith bytes.length bytes

/-- `kept` is the start of what comes next in the text. -/
def Cut (kept : List UInt8) (text : List Char) : Prop :=
  kept = [] ∨ ∃ c rest tail, text = c :: rest ∧ kept ++ tail = String.utf8EncodeChar c ∧ tail ≠ []

theorem encode_cons (c : Char) (text : List Char) :
    encode (c :: text) = String.utf8EncodeChar c ++ encode text := List.flatMap_cons

theorem toNat_ofNat {n : ℕ} (h : n < 256) : (UInt8.ofNat n).toNat = n := by
  rw [UInt8.toNat_ofNat']
  exact Nat.mod_eq_of_lt h

/-- Every proper start of a character is known as such. -/
theorem truncated_of_start {c : Char} {kept tail : List UInt8} (hne : kept ≠ []) (htail : tail ≠ [])
    (h : kept ++ tail = String.utf8EncodeChar c) : truncated kept := by
  have hvalid : c.val.toNat < 0xd800 ∨ 0xdfff < c.val.toNat ∧ c.val.toNat < 0x110000 := c.valid
  have hlen : kept.length < (String.utf8EncodeChar c).length := by
    rw [← h, List.length_append]
    have := List.length_pos_iff.mpr htail
    omega
  unfold String.utf8EncodeChar at h hlen
  dsimp only at h hlen
  generalize c.val.toNat = v at hvalid h hlen
  split at h
  case isTrue h1 =>
    rw [if_pos h1, List.length_singleton] at hlen
    exact absurd (List.length_pos_iff.mpr hne) (by omega)
  case isFalse h1 =>
  rw [if_neg h1] at hlen
  split at h
  case isTrue h2 =>
    rw [if_pos h2] at hlen
    obtain _ | ⟨a, _ | ⟨b, kept⟩⟩ := kept
    · exact absurd rfl hne
    · obtain ⟨rfl, -⟩ := List.cons.inj h
      simp only [truncated, Bool.and_eq_true, decide_eq_true_eq]
      rw [toNat_ofNat (by omega)]
      omega
    · simp only [List.length_cons, List.length_nil] at hlen
      omega
  case isFalse h2 =>
  rw [if_neg h2] at hlen
  split at h
  case isTrue h3 =>
    rw [if_pos h3] at hlen
    obtain _ | ⟨a, _ | ⟨b, _ | ⟨d, kept⟩⟩⟩ := kept
    · exact absurd rfl hne
    · obtain ⟨rfl, -⟩ := List.cons.inj h
      simp only [truncated, Bool.and_eq_true, decide_eq_true_eq]
      rw [toNat_ofNat (by omega)]
      omega
    · simp only [List.cons_append, List.cons.injEq] at h
      obtain ⟨rfl, rfl, -⟩ := h
      simp only [truncated, isSecond, isContinuation, Bool.and_eq_true, decide_eq_true_eq,
        Bool.or_eq_true, bne_iff_ne]
      rw [toNat_ofNat (by omega), toNat_ofNat (by omega)]
      omega
    · simp only [List.length_cons, List.length_nil] at hlen
      omega
  case isFalse h3 =>
    rw [if_neg h3] at hlen
    obtain _ | ⟨a, _ | ⟨b, _ | ⟨d, _ | ⟨e, kept⟩⟩⟩⟩ := kept
    · exact absurd rfl hne
    · obtain ⟨rfl, -⟩ := List.cons.inj h
      simp only [truncated, Bool.and_eq_true, decide_eq_true_eq]
      rw [toNat_ofNat (by omega)]
      omega
    · simp only [List.cons_append, List.cons.injEq] at h
      obtain ⟨rfl, rfl, -⟩ := h
      simp only [truncated, isSecond, isContinuation, Bool.and_eq_true, decide_eq_true_eq,
        Bool.or_eq_true, bne_iff_ne]
      rw [toNat_ofNat (by omega), toNat_ofNat (by omega)]
      omega
    · simp only [List.cons_append, List.cons.injEq] at h
      obtain ⟨rfl, rfl, rfl, -⟩ := h
      simp only [truncated, isSecond, isContinuation, Bool.and_eq_true, decide_eq_true_eq,
        Bool.or_eq_true, bne_iff_ne]
      rw [toNat_ofNat (by omega), toNat_ofNat (by omega), toNat_ofNat (by omega)]
      omega
    · simp only [List.length_cons, List.length_nil] at hlen
      omega

theorem decodeChar_start {c : Char} {kept tail : List UInt8} (htail : tail ≠ [])
    (h : kept ++ tail = String.utf8EncodeChar c) : kept.toByteArray.utf8DecodeChar? 0 = none := by
  cases hd : kept.toByteArray.utf8DecodeChar? 0 with
  | none => rfl
  | some d =>
    -- what is behind a character does not change it, so the start would be all of it
    have hmore := ByteArray.utf8DecodeChar?_append_eq_some hd tail.toByteArray
    rw [← List.toByteArray_append, h] at hmore
    have hwhole := ByteArray.utf8DecodeChar?_utf8EncodeChar_append (b := ByteArray.empty) (c := c)
    rw [ByteArray.append_empty, hmore] at hwhole
    cases hwhole
    have hsize := congrArg ByteArray.size (ByteArray.eq_of_utf8DecodeChar?_eq_some hd)
    have hlen := congrArg List.length h
    rw [ByteArray.size_append, List.size_toByteArray, List.size_toByteArray] at hsize
    rw [List.length_append] at hlen
    have := List.length_pos_iff.mpr htail
    omega

theorem decodeWith_encode {kept : List UInt8} {rest : List Char} (hcut : Cut kept rest)
    (text : List Char) {fuel : ℕ} (hfuel : (encode text ++ kept).length ≤ fuel) :
    decodeWith fuel (encode text ++ kept) = .ok (text, kept) := by
  induction text generalizing fuel with
  | nil =>
    rw [show encode [] ++ kept = kept from rfl] at hfuel ⊢
    obtain rfl | ⟨c, _, tail, -, hstart, htail⟩ := hcut
    · cases fuel <;> rfl
    · cases kept with
      | nil => cases fuel <;> rfl
      | cons b kept =>
        obtain ⟨fuel, rfl⟩ : ∃ n, fuel = n + 1 := by
          rw [List.length_cons] at hfuel
          exact ⟨fuel - 1, by omega⟩
        unfold decodeWith
        rw [decodeChar_start htail hstart]
        exact if_pos (truncated_of_start (List.cons_ne_nil b kept) htail hstart)
  | cons c text ih =>
    have hpos := c.utf8Size_pos
    rw [encode_cons, List.append_assoc] at hfuel ⊢
    have hne : String.utf8EncodeChar c ++ (encode text ++ kept) ≠ [] :=
      List.append_ne_nil_of_left_ne_nil String.utf8EncodeChar_ne_nil _
    rw [List.length_append, String.length_utf8EncodeChar] at hfuel
    obtain ⟨fuel, rfl⟩ : ∃ n, fuel = n + 1 := ⟨fuel - 1, by omega⟩
    have hdecode := ByteArray.utf8DecodeChar?_utf8EncodeChar_append
      (b := (encode text ++ kept).toByteArray) (c := c)
    rw [← List.toByteArray_append] at hdecode
    have hdrop : (String.utf8EncodeChar c ++ (encode text ++ kept)).drop c.utf8Size
        = encode text ++ kept := List.drop_left' (String.length_utf8EncodeChar c)
    rw [decodeWith.eq_3 _ _ hne, hdecode]
    dsimp only
    rw [hdrop, ih (by omega)]
    rfl

theorem decode_encode {kept : List UInt8} {rest : List Char} (hcut : Cut kept rest)
    (text : List Char) : decode (encode text ++ kept) = .ok (text, kept) :=
  decodeWith_encode hcut text (Nat.le_refl _)

/-- Wherever the bytes of a text are cut, what is before the cut is some characters and the start
of the next one. -/
theorem exists_cut {bytes more : List UInt8} {text : List Char} (h : bytes ++ more = encode text) :
    ∃ done rest kept, text = done ++ rest ∧ bytes = encode done ++ kept ∧
      kept ++ more = encode rest ∧ Cut kept rest := by
  induction text generalizing bytes with
  | nil =>
    obtain ⟨rfl, rfl⟩ := List.append_eq_nil_iff.mp h
    exact ⟨[], [], [], rfl, rfl, rfl, Or.inl rfl⟩
  | cons c text ih =>
    rw [encode_cons, List.append_eq_append_iff] at h
    obtain ⟨tail, htail, hmore⟩ | ⟨bytes, rfl, hrest⟩ := h
    · by_cases hnil : tail = []
      · subst hnil
        rw [List.append_nil] at htail
        refine ⟨[c], text, [], rfl, ?_, hmore, Or.inl rfl⟩
        rw [encode_cons, htail]
        simp [encode]
      · refine ⟨[], c :: text, bytes, rfl, rfl, ?_, Or.inr ⟨c, text, tail, rfl, htail.symm, hnil⟩⟩
        rw [encode_cons, htail, hmore, List.append_assoc]
    · obtain ⟨done, rest, kept, rfl, rfl, hkept, hcut⟩ := ih hrest.symm
      refine ⟨c :: done, rest, kept, rfl, ?_, hkept, hcut⟩
      rw [encode_cons, List.append_assoc]

/-- Nothing is left of a text whose bytes are all there. -/
theorem Cut.eq_nil {kept : List UInt8} {text : List Char} (h : Cut kept text)
    (hall : kept = encode text) : text = [] ∧ kept = [] := by
  obtain rfl | ⟨c, rest, tail, rfl, hstart, htail⟩ := h
  · cases text with
    | nil => exact ⟨rfl, rfl⟩
    | cons c text =>
      rw [encode_cons] at hall
      exact absurd (List.append_eq_nil_iff.mp hall.symm).1 String.utf8EncodeChar_ne_nil
  · have hlen := congrArg List.length hall
    have htotal := congrArg List.length hstart
    rw [encode_cons, List.length_append] at hlen
    rw [List.length_append] at htotal
    have := List.length_pos_iff.mpr htail
    omega

end Utf8
