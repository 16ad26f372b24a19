import SparkDeck.EnvFile.Text
import Mathlib.Data.List.DropRight

/-!
# The registry of an image reference

`normalize_image_reference`, `registry_head`, `split_authority` and `is_loopback_registry_image`
(`sparkdeck/throttled_image_pull.py`). A text is the list of its characters.

* `str.lower` is a parameter: `Lowering` is what it does to ASCII, and what of ASCII it makes of
  other characters.
* `normalize_iff`: a normalised reference is normal; when it has one tag, and when its registry is
  the one that `registry_head` finds.
* `localhost_routed`: a name that is `localhost` in upper case is not the same registry to both.
-/

namespace SparkDeck.Registry

open EnvFile (isSpace)

inductive PullError where
  | notValid
  | transport
  | digest
  deriving DecidableEq

def PullError.message : PullError → String
  | notValid => "image reference is not valid"
  | transport => "image reference must not include a transport prefix"
  | digest => "bandwidth-limited pulls cannot register a digest-pinned image; use a tagged " ++
      "reference or set the download limit to 0"

/-- `str.strip` -/
def strip (text : List Char) : List Char := (text.dropWhile isSpace).rdropWhile isSpace

def transportPrefix : List Char := "docker://".toList

def localhost : List Char := "localhost".toList

/-- The first segment of a path. -/
def head (reference : List Char) : List Char := reference.takeWhile (· ≠ '/')

/-- `reference.rsplit("/", 1)[-1]` -/
def lastSegment (reference : List Char) : List Char := reference.rtakeWhile (· ≠ '/')

/-- A first segment that is a registry. -/
def isRegistry (head : List Char) : Bool := '.' ∈ head || ':' ∈ head || head = localhost

/-- The expansion of a reference without a registry. -/
def expanded (reference : List Char) : List Char :=
  if '/' ∈ reference then
    if isRegistry (head reference) then reference else "docker.io/".toList ++ reference
  else "docker.io/library/".toList ++ reference

/-- A reference with a tag. -/
def tagged (reference : List Char) : Except PullError (List Char) :=
  if ':' ∈ lastSegment reference then
    if ((lastSegment reference).dropWhile (· ≠ ':')).drop 1 = [] then .error .notValid
    else .ok reference
  else .ok (reference ++ ":latest".toList)

/-- `normalize_image_reference` -/
def normalizeImageReference (image : List Char) : Except PullError (List Char × List Char) :=
  let reference := strip image
  if reference = [] ∨ reference.any isSpace then .error .notValid
  else if transportPrefix <+: reference then .error .transport
  else if '@' ∈ reference then .error .digest
  else
    match tagged (expanded reference) with
    | .ok reference => .ok (transportPrefix ++ reference, reference)
    | .error e => .error e

/-- `removeprefix("docker://")` -/
def withoutTransport (reference : List Char) : List Char :=
  if transportPrefix <+: reference then reference.drop transportPrefix.length else reference

section lower

variable (lower : List Char → List Char)

/-- `registry_head` -/
def registryHead (image : List Char) : Option (List Char) :=
  let reference := withoutTransport (strip image)
  if '/' ∈ reference then
    let head := lower (head reference)
    if '@' ∈ head then none
    else if isRegistry head then some head
    else none
  else none

/-- `split_authority` -/
def splitAuthority : List Char → List Char × List Char
  | '[' :: value => (value.takeWhile (· ≠ ']'),
      ((value.dropWhile (· ≠ ']')).drop 1).dropWhile (· = ':'))
  | value => (value.takeWhile (· ≠ ':'), (value.dropWhile (· ≠ ':')).drop 1)

/-- `_LOOPBACK_HOSTS` -/
def loopbackHosts : List (List Char) :=
  [localhost, "::1".toList, "ip6-localhost".toList, "ip6-loopback".toList]

/-- `is_loopback_registry_image`; `isLoopback` is that of `ipaddress`, and false where it raises. -/
def isLoopbackRegistryImage (isLoopback : List Char → Bool) (image : List Char) : Bool :=
  match registryHead lower image with
  | none | some [] => false
  | some head =>
    let host := (splitAuthority head).1.rdropWhile (· = '.')
    host ∈ loopbackHosts || ".localhost".toList.isSuffixOf host || isLoopback host

/-- What `str.lower` makes of one character, in whatever text it stands. -/
def Lowers (c : Char) (piece : List Char) : Prop :=
  if c.toNat < 128 then piece = [c.toLower]
  else piece ≠ [] ∧ ∀ d ∈ piece, d = 'i' ∨ d = 'k' ∨ 128 ≤ d.toNat

/-- `str.lower`: of the characters that are not ASCII only U+0130 and U+212A give one that is. -/
def Lowering : Prop :=
  ∀ text, ∃ pieces, lower text = pieces.flatten ∧ List.Forall₂ Lowers text pieces

/-! ## What is said of a reference -/

/-- The last segment has a tag, and only one. -/
def OneTag (reference : List Char) : Prop :=
  ∃ name tag, lastSegment reference = name ++ ':' :: tag ∧ tag ≠ [] ∧ ':' ∉ name ∧ ':' ∉ tag

/-- The first segment of an image is the registry of its reference. -/
def Kept (image reference : List Char) : Prop :=
  reference = strip image ∨ reference = strip image ++ ":latest".toList

/-- `registry_head` and the reference name the same registry. -/
structure Agrees (image reference : List Char) : Prop where
  kept : (registryHead lower image).isSome ↔ Kept image reference
  host : ∀ host, registryHead lower image = some host → host = lower (head reference)
  hub : registryHead lower image = none → head reference = "docker.io".toList

/-- The first segment is `localhost`, but with capital letters. -/
def Capital (reference : List Char) : Prop :=
  '/' ∈ reference ∧ head reference ≠ localhost ∧ (head reference).map Char.toLower = localhost

end lower

/-! ## Lower case -/

theorem toLower_ascii {c x : Char} (h : c.toLower = x) (hx : x.toNat < 128) : c.toNat < 128 := by
  by_contra hc
  have hsame : c.toLower = c := by
    unfold Char.toLower
    split
    · next hupper =>
      exfalso
      have hle := UInt32.le_iff_toNat_le.mp hupper.2
      exact hc (lt_of_le_of_lt hle (by decide))
    · rfl
  rw [hsame] at h
  exact hc (h ▸ hx)

/-- Only a letter is changed. -/
theorem toLower_eq_iff {c x : Char} (hx : x ∈ ['.', ':', '@']) : c.toLower = x ↔ c = x := by
  have hall : ((List.range 128).all fun n =>
      ['.', ':', '@'].all fun x =>
        decide ((Char.ofNat n).toLower = x ↔ Char.ofNat n = x)) := by decide
  have hascii : x.toNat < 128 := by
    have h : (['.', ':', '@'].all fun x => decide (x.toNat < 128)) := by decide
    exact of_decide_eq_true (List.all_eq_true.mp h x hx)
  by_cases hc : c.toNat < 128
  · have h := List.all_eq_true.mp (List.all_eq_true.mp hall c.toNat (List.mem_range.mpr hc)) x hx
    rw [Char.ofNat_toNat] at h
    exact of_decide_eq_true h
  · constructor
    · intro h
      exact absurd (toLower_ascii h hascii) hc
    · rintro rfl
      exact absurd hascii hc

section lower

variable {lower : List Char → List Char} (hlower : Lowering lower) {text : List Char}

variable {pieces : List (List Char)}

theorem mem_pieces {x : Char} (hx : x ∈ ['.', ':', '@']) (h : List.Forall₂ Lowers text pieces) :
    x ∈ pieces.flatten ↔ x ∈ text := by
  induction h with
  | nil => exact Iff.rfl
  | @cons c piece text pieces hc _ ih =>
    rw [List.flatten_cons, List.mem_append, ih, List.mem_cons]
    refine or_congr ?_ Iff.rfl
    unfold Lowers at hc
    split at hc
    · rw [hc, List.mem_singleton, eq_comm, toLower_eq_iff hx, eq_comm]
    · next hascii =>
      constructor
      · intro hmem
        have hall : (['.', ':', '@'].all fun x => !(x = 'i' ∨ x = 'k' ∨ 128 ≤ x.toNat)) := by
          decide
        have hno := List.all_eq_true.mp hall x hx
        exact absurd (hc.2 x hmem) (by simpa using hno)
      · rintro rfl
        have hall : (['.', ':', '@'].all fun x => decide (x.toNat < 128)) := by decide
        exact absurd (of_decide_eq_true (List.all_eq_true.mp hall x hx)) hascii

theorem flatten_of_ascii (h : List.Forall₂ Lowers text pieces)
    (hascii : ∀ c ∈ text, c.toNat < 128) : pieces.flatten = text.map Char.toLower := by
  induction h with
  | nil => rfl
  | @cons c piece text pieces hc _ ih =>
    rw [Lowers, if_pos (hascii c List.mem_cons_self)] at hc
    rw [List.flatten_cons, hc, ih fun d hd => hascii d (List.mem_cons_of_mem c hd), List.map_cons,
      List.singleton_append]

theorem ascii_of_flatten (h : List.Forall₂ Lowers text pieces)
    (hpieces : ∀ d ∈ pieces.flatten, d ≠ 'i' ∧ d ≠ 'k' ∧ d.toNat < 128) :
    ∀ c ∈ text, c.toNat < 128 := by
  induction h with
  | nil => exact nofun
  | @cons c piece text pieces hc _ ih =>
    refine List.forall_mem_cons.mpr ⟨?_, ih fun d hd => hpieces d ?_⟩
    · unfold Lowers at hc
      split at hc
      · next hascii => exact hascii
      · obtain ⟨d, hd⟩ := List.exists_mem_of_ne_nil _ hc.1
        obtain ⟨hi, hk, hlt⟩ := hpieces d (List.mem_append_left _ hd)
        rcases hc.2 d hd with rfl | rfl | hle
        · exact absurd rfl hi
        · exact absurd rfl hk
        · exact absurd hlt (Nat.not_lt.mpr hle)
    · exact List.mem_append_right _ hd

include hlower in
theorem mem_lower {x : Char} (hx : x ∈ ['.', ':', '@']) (text : List Char) :
    x ∈ lower text ↔ x ∈ text := by
  obtain ⟨pieces, heq, hpieces⟩ := hlower text
  rw [heq, mem_pieces hx hpieces]

include hlower in
theorem lower_eq_localhost (text : List Char) :
    lower text = localhost ↔ text.map Char.toLower = localhost := by
  obtain ⟨pieces, heq, hpieces⟩ := hlower text
  have hletters : ∀ d ∈ localhost, d ≠ 'i' ∧ d ≠ 'k' ∧ d.toNat < 128 := by
    have hall : (localhost.all fun d => decide (d ≠ 'i' ∧ d ≠ 'k' ∧ d.toNat < 128)) := by
      decide
    exact fun d hd => of_decide_eq_true (List.all_eq_true.mp hall d hd)
  rw [heq]
  constructor
  · intro h
    have hascii := ascii_of_flatten hpieces (h ▸ hletters)
    rw [← flatten_of_ascii hpieces hascii, h]
  · intro h
    have hascii : ∀ c ∈ text, c.toNat < 128 := fun c hc =>
      toLower_ascii rfl (hletters _ (h ▸ List.mem_map_of_mem hc)).2.2
    rw [flatten_of_ascii hpieces hascii, h]

include hlower in
/-- A first segment is a registry in lower case, or is `localhost` in capital letters. -/
theorem isRegistry_lower (text : List Char) : isRegistry (lower text) ↔
    isRegistry text ∨ text.map Char.toLower = localhost := by
  unfold isRegistry
  simp only [Bool.or_eq_true, decide_eq_true_eq, mem_lower hlower (x := '.') (by decide) text,
    mem_lower hlower (x := ':') (by decide) text, lower_eq_localhost hlower text]
  constructor
  · rintro (h | h)
    · exact Or.inl (Or.inl h)
    · exact Or.inr h
  · rintro ((h | rfl) | h)
    · exact Or.inl h
    · exact Or.inr (by decide)
    · exact Or.inr h

end lower

/-! ## Segments -/

theorem head_append {a : List Char} (h : '/' ∈ a) (b : List Char) : head (a ++ b) = head a := by
  unfold head
  rw [List.takeWhile_append, if_neg]
  intro hlen
  have hself : a.takeWhile (fun c => decide (c ≠ '/')) = a :=
    List.IsPrefix.eq_of_length ( List.takeWhile_prefix _) hlen
  simpa using List.takeWhile_eq_self_iff.mp hself '/' h

theorem lastSegment_slash (a b : List Char) : lastSegment (a ++ '/' :: b) = lastSegment b := by
  unfold lastSegment List.rtakeWhile
  rw [List.reverse_append, List.reverse_cons, List.append_assoc, List.takeWhile_append]
  split
  case isFalse => rfl
  case isTrue hall =>
    have hself := List.IsPrefix.eq_of_length ( List.takeWhile_prefix _) hall
    rw [hself, List.singleton_append, List.takeWhile_cons, if_neg (by decide), List.append_nil]

/-- What has no slash goes to the end of the last segment. -/
theorem lastSegment_append (a : List Char) {b : List Char} (h : '/' ∉ b) :
    lastSegment (a ++ b) = lastSegment a ++ b := by
  have hb : ∀ c ∈ b.reverse, decide (c ≠ '/') := fun c hc => by
    refine decide_eq_true ?_
    rintro rfl
    exact h (List.mem_reverse.mp hc)
  unfold lastSegment List.rtakeWhile
  rw [List.reverse_append, List.takeWhile_append_of_pos hb, List.reverse_append,
    List.reverse_reverse]

theorem lastSegment_expanded (reference : List Char) :
    lastSegment (expanded reference) = lastSegment reference := by
  unfold expanded
  split
  · split
    · rfl
    · exact lastSegment_slash "docker.io".toList reference
  · exact lastSegment_slash "docker.io/library".toList reference

theorem slash_expanded (reference : List Char) : '/' ∈ expanded reference := by
  unfold expanded
  split
  · next h =>
    split
    · exact h
    · exact List.mem_append_left _ (by decide)
  · exact List.mem_append_left _ (by decide)

theorem isRegistry_expanded (reference : List Char) :
    isRegistry (head (expanded reference)) := by
  unfold expanded
  split
  · split
    · next h => exact h
    · rw [head_append (by decide)]
      decide
  · rw [head_append (by decide)]
    decide

/-- A reference with its registry. -/
structure Full (reference : List Char) : Prop where
  slash : '/' ∈ reference
  registry : isRegistry (head reference)
  noSpace : ∀ c ∈ reference, isSpace c = false
  noTransport : ¬transportPrefix <+: reference
  noDigest : '@' ∉ reference

variable {reference : List Char}

theorem full_expanded (hspace : ∀ c ∈ reference, isSpace c = false)
    (htransport : ¬transportPrefix <+: reference) (hdigest : '@' ∉ reference) :
    Full (expanded reference) := by
  refine ⟨slash_expanded reference, isRegistry_expanded reference, ?_, ?_, ?_⟩
  · have hadded : ∀ {a : List Char}, (a.all fun c => !isSpace c) = true →
        ∀ c ∈ a ++ reference, isSpace c = false := by
      intro a ha c hc
      rcases List.mem_append.mp hc with hc | hc
      · simpa using List.all_eq_true.mp ha c hc
      · exact hspace c hc
    unfold expanded
    split
    · split
      · exact hspace
      · exact hadded (by decide)
    · exact hadded (by decide)
  · have hadded : ∀ t, ¬transportPrefix <+: "docker.io/".toList ++ t := by
      intro t hpre
      have htake := List.prefix_iff_eq_take.mp hpre
      rw [List.take_append_of_le_length (by decide)] at htake
      exact absurd htake (by decide)
    unfold expanded
    split
    · split
      · exact htransport
      · exact hadded reference
    · exact hadded ("library/".toList ++ reference)
  · unfold expanded
    split
    · split
      · exact hdigest
      · rw [List.mem_append, not_or]
        exact ⟨by decide, hdigest⟩
    · rw [List.mem_append, not_or]
      exact ⟨by decide, hdigest⟩

/-- A tag does not make a transport prefix. -/
theorem noTransport_latest (hslash : '/' ∈ reference) (h : ¬transportPrefix <+: reference) :
    ¬transportPrefix <+: reference ++ ":latest".toList := by
  intro hpre
  rcases List.prefix_or_prefix_of_prefix hpre (List.prefix_append reference _) with hle | hle
  · exact h hle
  · obtain ⟨u, hu⟩ := hle
    cases u with
    | nil =>
      rw [List.append_nil] at hu
      exact h (hu ▸ List.prefix_rfl)
    | cons d u =>
      -- the colon after the reference is that of the prefix
      obtain ⟨v, hv⟩ := hpre
      rw [← hu, List.append_assoc, List.append_right_inj] at hv
      obtain rfl : d = ':' := (List.cons.inj hv).1
      have hcount := congrArg (List.count ':') hu
      rw [List.count_append, List.count_cons_self,
        show List.count ':' transportPrefix = 1 by decide] at hcount
      have hno : ':' ∉ reference := List.count_eq_zero.mp (by omega)
      have htake := (EnvFile.takeWhile_stop (p := fun c => decide (c ≠ ':')) (a := reference)
        (b := ':' :: u) (fun c hc => decide_eq_true fun heq => hno (heq ▸ hc)) fun c hc => by
          cases hc
          decide).1
      rw [hu] at htake
      rw [← htake] at hslash
      exact absurd hslash (by decide)

theorem Full.latest (h : Full reference) : Full (reference ++ ":latest".toList) := by
  refine ⟨List.mem_append_left _ h.slash, by rw [head_append h.slash]; exact h.registry, ?_,
    noTransport_latest h.slash h.noTransport, ?_⟩
  · intro c hc
    rcases List.mem_append.mp hc with hc | hc
    · exact h.noSpace c hc
    · have hall : (":latest".toList.all fun c => !isSpace c) = true := by decide
      simpa using List.all_eq_true.mp hall c hc
  · rw [List.mem_append, not_or]
    exact ⟨h.noDigest, by decide⟩

/-! ## Tags -/

theorem after_colon {segment : List Char} (h : ':' ∈ segment) : ∃ name tag,
    segment = name ++ ':' :: tag ∧ ':' ∉ name ∧
      (segment.dropWhile (· ≠ ':')).drop 1 = tag := by
  have hall := List.takeWhile_append_dropWhile (p := fun c => decide (c ≠ ':')) (l := segment)
  have hname : ':' ∉ segment.takeWhile (· ≠ ':') := fun hmem => by
    simpa using List.mem_takeWhile_imp hmem
  cases hdrop : segment.dropWhile (· ≠ ':') with
  | nil =>
    rw [hdrop, List.append_nil] at hall
    exact absurd (hall.symm ▸ h) hname
  | cons d tag =>
    have hd : d = ':' := by
      have hhead := List.head?_dropWhile_not (fun c => decide (c ≠ ':')) segment
      rw [hdrop] at hhead
      simpa using hhead
    subst hd
    rw [hdrop] at hall
    exact ⟨_, tag, hall.symm, hname, rfl⟩

/-- The specification of `tagged`. -/
theorem tagged_spec {reference tag : List Char} (h : tagged reference = .ok tag) :
    (tag = reference ∨ tag = reference ++ ":latest".toList) ∧ tagged tag = .ok tag ∧
      (OneTag tag ↔ (lastSegment reference).count ':' ≤ 1) := by
  have hlatest : lastSegment (reference ++ ":latest".toList) =
      lastSegment reference ++ ":latest".toList := lastSegment_append reference (by decide)
  unfold tagged at h
  split at h
  case isTrue hcolon =>
    split at h
    case isTrue => cases h
    case isFalse hne =>
      cases h
      refine ⟨Or.inl rfl, by rw [tagged, if_pos hcolon, if_neg hne], ?_⟩
      obtain ⟨name, tag, hsegment, hname, htag⟩ := after_colon hcolon
      rw [htag] at hne
      rw [hsegment, List.count_append, List.count_cons_self, List.count_eq_zero_of_not_mem hname]
      constructor
      · rintro ⟨name', tag', hsegment', _, hname', htag'⟩
        rw [hsegment'] at hsegment
        have hcount := congrArg (List.count ':') hsegment
        rw [List.count_append, List.count_append, List.count_cons_self, List.count_cons_self,
          List.count_eq_zero_of_not_mem hname, List.count_eq_zero_of_not_mem hname',
          List.count_eq_zero_of_not_mem htag'] at hcount
        omega
      · intro hle
        exact ⟨name, tag, hsegment, hne, hname, List.count_eq_zero.mp (by omega)⟩
  case isFalse hcolon =>
    cases h
    refine ⟨Or.inr rfl, ?_, ?_⟩
    · have hstop := EnvFile.takeWhile_stop (p := fun c => decide (c ≠ ':'))
        (a := lastSegment reference) (b := ":latest".toList)
        (fun c hc => decide_eq_true fun heq => hcolon (heq ▸ hc)) fun c hc => by
          cases hc
          decide
      rw [tagged, hlatest, if_pos (List.mem_append_right _ (by decide)), hstop.2,
        if_neg (by decide)]
    · rw [List.count_eq_zero_of_not_mem hcolon]
      refine ⟨fun _ => Nat.zero_le 1, fun _ => ⟨lastSegment reference, "latest".toList, hlatest,
        by decide, hcolon, by decide⟩⟩

/-! ## Normal references -/

theorem strip_eq {text : List Char} (h : ∀ c ∈ text, isSpace c = false) : strip text = text := by
  have hfirst : text.dropWhile isSpace = text := by
    cases text with
    | nil => rfl
    | cons c text =>
      rw [List.dropWhile_cons, h c List.mem_cons_self, if_neg Bool.false_ne_true]
  unfold strip
  rw [hfirst, List.rdropWhile_eq_self_iff]
  intro hne
  rw [h _ (List.getLast_mem hne)]
  exact Bool.false_ne_true

theorem normalize_full (h : Full reference) :
    normalizeImageReference reference =
      match tagged reference with
      | .ok reference => .ok (transportPrefix ++ reference, reference)
      | .error e => .error e := by
  have hne : ¬(reference = [] ∨ reference.any isSpace) := by
    rintro (rfl | hany)
    · exact absurd h.slash List.not_mem_nil
    · obtain ⟨c, hc, hspace⟩ := List.any_eq_true.mp hany
      rw [h.noSpace c hc] at hspace
      cases hspace
  have hexpanded : expanded reference = reference := by
    rw [expanded, if_pos h.slash, if_pos h.registry]
  unfold normalizeImageReference
  rw [strip_eq h.noSpace, if_neg hne, if_neg h.noTransport, if_neg h.noDigest, hexpanded]

/-- What is accepted. -/
theorem normalize_spec {image source tag : List Char}
    (h : normalizeImageReference image = .ok (source, tag)) :
    (∀ c ∈ strip image, isSpace c = false) ∧ ¬transportPrefix <+: strip image ∧
      '@' ∉ strip image ∧ source = transportPrefix ++ tag ∧
      tagged (expanded (strip image)) = .ok tag := by
  unfold normalizeImageReference at h
  dsimp only at h
  split at h
  case isTrue => cases h
  case isFalse hvalid =>
    split at h
    case isTrue => cases h
    case isFalse htransport =>
      split at h
      case isTrue => cases h
      case isFalse hdigest =>
        cases htagged : tagged (expanded (strip image)) with
        | error e =>
          rw [htagged] at h
          cases h
        | ok reference =>
          rw [htagged] at h
          cases h
          refine ⟨fun c hc => ?_, htransport, hdigest, rfl, rfl⟩
          by_contra hspace
          exact hvalid (Or.inr (List.any_eq_true.mpr ⟨c, hc, by simpa using hspace⟩))

/-- A reference with a registry in front of the image does not keep its first segment. -/
theorem not_kept {image a tag : List Char} (ha : a.length ≠ 0) (ha' : a.length ≠ 7)
    (h : tag = a ++ strip image ∨ tag = a ++ strip image ++ ":latest".toList) :
    ¬Kept image tag := by
  have hseven : (":latest".toList : List Char).length = 7 := by decide
  rintro (hkept | hkept)
  · rcases h with h | h <;>
    · have hlen := congrArg List.length (h.symm.trans hkept)
      simp only [List.length_append, hseven] at hlen
      omega
  · rcases h with h | h <;>
    · have hlen := congrArg List.length (h.symm.trans hkept)
      simp only [List.length_append, hseven] at hlen
      omega

section lower

variable {lower : List Char → List Char} (hlower : Lowering lower)

include hlower in
theorem agrees_iff {image tag : List Char} (htransport : ¬transportPrefix <+: strip image)
    (hdigest : '@' ∉ strip image)
    (htag : tag = expanded (strip image) ∨ tag = expanded (strip image) ++ ":latest".toList) :
    Agrees lower image tag ↔ ¬Capital (strip image) := by
  have hhead : head tag = head (expanded (strip image)) := by
    rcases htag with rfl | rfl
    · rfl
    · exact head_append (slash_expanded _) _
  have hregistry : registryHead lower image =
      if '/' ∈ strip image then
        if isRegistry (lower (head (strip image))) then some (lower (head (strip image))) else none
      else none := by
    have hat : '@' ∉ lower (head (strip image)) := by
      rw [mem_lower hlower (by decide)]
      exact fun hmem => hdigest (List.IsPrefix.subset ( List.takeWhile_prefix _) hmem)
    unfold registryHead withoutTransport
    rw [if_neg htransport]
    dsimp only
    rw [if_neg hat]
  by_cases hslash : '/' ∈ strip image
  · rw [if_pos hslash] at hregistry
    by_cases hreg : isRegistry (head (strip image))
    · -- both take the first segment
      have hexpanded : expanded (strip image) = strip image := by
        rw [expanded, if_pos hslash, if_pos hreg]
      rw [hexpanded] at htag hhead
      rw [if_pos ((isRegistry_lower hlower _).mpr (Or.inl hreg))] at hregistry
      refine iff_of_true ⟨?_, ?_, ?_⟩ ?_
      · rw [hregistry]
        exact iff_of_true rfl htag
      · intro host hhost
        rw [hregistry] at hhost
        rw [hhead]
        exact (Option.some.inj hhost).symm
      · rw [hregistry]
        exact nofun
      · rintro ⟨_, hne, hcapital⟩
        have hletters : ∀ x ∈ head (strip image), x.toLower ∈ localhost := fun x hx =>
          hcapital ▸ List.mem_map_of_mem hx
        unfold isRegistry at hreg
        simp only [Bool.or_eq_true, decide_eq_true_eq] at hreg
        rcases hreg with (hdot | hcolon) | heq
        · exact absurd (hletters _ hdot) (by decide)
        · exact absurd (hletters _ hcolon) (by decide)
        · exact hne heq
    · have hexpanded : expanded (strip image) = "docker.io/".toList ++ strip image := by
        rw [expanded, if_pos hslash, if_neg hreg]
      rw [hexpanded] at htag hhead
      have hkept : ¬Kept image tag := not_kept (by decide) (by decide) htag
      by_cases hcapital : (head (strip image)).map Char.toLower = localhost
      · -- `registry_head` takes the first segment only
        rw [if_pos ((isRegistry_lower hlower _).mpr (Or.inr hcapital))] at hregistry
        refine iff_of_false (fun h => hkept (h.kept.mp (by rw [hregistry]; rfl))) ?_
        refine not_not.mpr ⟨hslash, fun heq => hreg ?_, hcapital⟩
        rw [heq]
        decide
      · have hnone : ¬isRegistry (lower (head (strip image))) := by
          rw [isRegistry_lower hlower]
          exact not_or.mpr ⟨hreg, hcapital⟩
        rw [if_neg hnone] at hregistry
        refine iff_of_true ⟨?_, ?_, ?_⟩ fun h => hcapital h.2.2
        · rw [hregistry]
          exact iff_of_false Bool.false_ne_true hkept
        · rw [hregistry]
          exact nofun
        · intro _
          rw [hhead, head_append (by decide)]
          decide
  · have hexpanded : expanded (strip image) = "docker.io/library/".toList ++ strip image := by
      rw [expanded, if_neg hslash]
    rw [hexpanded] at htag hhead
    rw [if_neg hslash] at hregistry
    refine iff_of_true ⟨?_, ?_, ?_⟩ fun h => hslash h.1
    · rw [hregistry]
      exact iff_of_false Bool.false_ne_true (not_kept (by decide) (by decide) htag)
    · rw [hregistry]
      exact nofun
    · intro _
      rw [hhead, head_append (by decide)]
      decide

include hlower in
/-- For every accepted image: its reference is normal; it has one tag exactly when the last segment
of the image has no second colon; and its registry is the one that `registry_head` finds exactly
when the first segment is not `localhost` with capital letters. -/
theorem normalize_iff {image source tag : List Char}
    (h : normalizeImageReference image = .ok (source, tag)) :
    normalizeImageReference tag = .ok (source, tag) ∧
      (OneTag tag ↔ (lastSegment (strip image)).count ':' ≤ 1) ∧
      (Agrees lower image tag ↔ ¬Capital (strip image)) := by
  obtain ⟨hspace, htransport, hdigest, rfl, htagged⟩ := normalize_spec h
  obtain ⟨htag, hagain, hone⟩ := tagged_spec htagged
  have hfull : Full tag := by
    have hexpanded := full_expanded hspace htransport hdigest
    rcases htag with rfl | rfl
    · exact hexpanded
    · exact hexpanded.latest
  refine ⟨?_, ?_, agrees_iff hlower htransport hdigest htag⟩
  · rw [normalize_full hfull, hagain]
  · rw [hone, lastSegment_expanded]

end lower

/-! ## Runs -/

/-- `str.lower` for ASCII. -/
def lowerAscii (text : List Char) : List Char := text.map Char.toLower

theorem lowering_ascii : Lowering lowerAscii := by
  intro text
  refine ⟨text.map fun c => [c.toLower], ?_, ?_⟩
  · unfold lowerAscii
    induction text with
    | nil => rfl
    | cons c text ih => rw [List.map_cons, List.map_cons, List.flatten_cons, ← ih]; rfl
  · refine List.forall₂_map_right_iff.mpr (List.forall₂_same.mpr fun c _ => ?_)
    unfold Lowers
    split
    · rfl
    · next hascii =>
      refine ⟨List.cons_ne_nil _ _, fun d hd => Or.inr (Or.inr ?_)⟩
      obtain rfl := List.mem_singleton.mp hd
      by_contra hlt
      exact hascii (toLower_ascii rfl (Nat.not_le.mp hlt))

/-- An image of a registry with a port. -/
theorem normalize_port : ∃ source tag,
    normalizeImageReference "Host:5000/team/model".toList = .ok (source, tag) ∧
    tag = "Host:5000/team/model:latest".toList ∧ OneTag tag ∧
    Agrees lowerAscii "Host:5000/team/model".toList tag := by
  have h : normalizeImageReference "Host:5000/team/model".toList =
      .ok ("docker://Host:5000/team/model:latest".toList,
        "Host:5000/team/model:latest".toList) := by decide +kernel
  obtain ⟨_, hone, hagrees⟩ := normalize_iff lowering_ascii h
  refine ⟨_, _, h, rfl, hone.mpr (by decide +kernel), hagrees.mpr ?_⟩
  rintro ⟨_, _, hcapital⟩
  exact absurd hcapital (by decide +kernel)

/-- `LOCALHOST/model` is an image of Docker Hub for the capped pull, and one of the machine itself
for the routing; and `a:b:c` has two tags. -/
theorem localhost_routed : (∃ source,
      normalizeImageReference "LOCALHOST/model".toList =
        .ok (source, "docker.io/LOCALHOST/model:latest".toList) ∧
      registryHead lowerAscii "LOCALHOST/model".toList = some localhost ∧
      isLoopbackRegistryImage lowerAscii (fun _ => false) "LOCALHOST/model".toList = true ∧
      ¬Agrees lowerAscii "LOCALHOST/model".toList "docker.io/LOCALHOST/model:latest".toList) ∧
    ∃ source, normalizeImageReference "a:b:c".toList =
        .ok (source, "docker.io/library/a:b:c".toList) ∧
      (lastSegment "docker.io/library/a:b:c".toList).count ':' = 2 := by
  refine ⟨⟨"docker://docker.io/LOCALHOST/model:latest".toList, by decide +kernel,
    by decide +kernel, by decide +kernel, fun h => ?_⟩,
    "docker://docker.io/library/a:b:c".toList, by decide +kernel, by decide +kernel⟩
  have hkept := h.kept.mp (by decide +kernel)
  rcases hkept with hkept | hkept
  · exact absurd hkept (by decide +kernel)
  · exact absurd hkept (by decide +kernel)

end SparkDeck.Registry
