import SparkDeck.EnvFile.Text

/-!
# The destinations that bypass a proxy

Model of `split_authority` and `no_proxy_direct` of the pull proxy's script
(`sparkdeck/throttled_image_pull.py`). A text is the list of its characters.

* `Python` is what the script uses of the language: `str.lower`, and of `ipaddress` its parsing and
  containment.
* The literal address of the host is looked up when an entry needs it; it is one for all entries.
-/

namespace SparkDeck.PullProxy

open EnvFile (isSpace)

structure Python where
  lower : List Char → List Char
  Address : Type
  Network : Type
  /-- `ipaddress.ip_address`, none where it raises. -/
  address : List Char → Option Address
  /-- `ipaddress.ip_network(..., strict=False)`, none where it raises. -/
  network : List Char → Option Network
  version : Address → ℕ
  networkVersion : Network → ℕ
  contains : Network → Address → Bool

/-! ## Texts -/

/-- `lstrip` of one character. -/
def lstrip (c : Char) (s : List Char) : List Char := s.dropWhile (· = c)

/-- `rstrip` of one character. -/
def rstrip (c : Char) (s : List Char) : List Char := (s.reverse.dropWhile (· = c)).reverse

/-- `s.strip()` -/
def strip (s : List Char) : List Char := ((s.dropWhile isSpace).reverse.dropWhile isSpace).reverse

/-- `removeprefix` -/
def removePrefix (p s : List Char) : List Char := if p.isPrefixOf s then s.drop p.length else s

/-- `s.split()` -/
def words (s : List Char) : List (List Char) := (s.splitOnP isSpace).filter (· ≠ [])

/-! ## Entries -/

/-- `split_authority` -/
def splitAuthority (value : List Char) : List Char × List Char :=
  match value with
  | '[' :: value =>
    (value.takeWhile (· ≠ ']'), lstrip ':' ((value.dropWhile (· ≠ ']')).drop 1))
  | value => (value.takeWhile (· ≠ ':'), (value.dropWhile (· ≠ ':')).drop 1)

/-- `NO_PROXY.replace(",", " ").split()` -/
def entries (noProxy : List Char) : List (List Char) :=
  words (noProxy.map fun c => if c = ',' then ' ' else c)

/-- An entry without scheme and trailing slashes. -/
def unschemed (raw : List Char) : List Char :=
  rstrip '/' (removePrefix "https://".toList (removePrefix "http://".toList (strip raw)))

variable (py : Python)

/-- An entry without case, wildcard and dots around it. -/
def bare (entry : List Char) : List Char :=
  rstrip '.' (lstrip '.' (removePrefix "*.".toList (py.lower (strip entry))))

/-- The host that is asked for. -/
def hostOf (authority : List Char) : List Char :=
  rstrip '.' (py.lower (strip (splitAuthority authority).1))

/-- The host is a literal address in the network of an entry. -/
def inNetwork (host entry : List Char) : Bool :=
  match py.address host, py.network entry with
  | some a, some n => py.version a = py.networkVersion n && py.contains n a
  | _, _ => false

/-- One turn of the loop. -/
def admits (host raw : List Char) : Bool :=
  let entry := unschemed raw
  if entry = ['*'] then true
  else
    let entry := bare py (splitAuthority entry).1
    if '/' ∈ entry then inNetwork py host entry
    else entry ≠ [] && (host = entry || ('.' :: entry).isSuffixOf host)

/-- `no_proxy_direct` -/
def noProxyDirect (noProxy authority : List Char) : Bool :=
  if noProxy = [] then false
  else (entries noProxy).any (admits py (hostOf py authority))

end SparkDeck.PullProxy
