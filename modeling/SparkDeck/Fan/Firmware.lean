import Mathlib.Data.List.Basic
import Mathlib.Tactic.Linarith

/-!
# The fan firmware

`Fan/firmware/main.py`: the wiper of the digital potentiometer, the text it is told by, and one
round of the command loop. The clock is a number of milliseconds; `ticks_ms` wraps, and
`ticks_diff` is the signed difference on that ring.

The serial text is ASCII, so `str.strip`, `str.split` and `int` are written out for ASCII.
-/

namespace SparkDeck.Fan

abbrev Text := List Char

/-! ## Text -/

def isSpace (c : Char) : Bool :=
  c == ' ' || c == '\t' || c == '\n' || c == '\r' || c == '\x0b' || c == '\x0c'

/-- `str.strip()` -/
def strip (s : Text) : Text := ((s.dropWhile isSpace).reverse.dropWhile isSpace).reverse

def splitFrom : Text → Text → List Text
  | part, [] => if part = [] then [] else [part]
  | part, c :: s =>
    if isSpace c then
      if part = [] then splitFrom [] s else part :: splitFrom [] s
    else splitFrom (part ++ [c]) s

/-- `str.split()` -/
def split (s : Text) : List Text := splitFrom [] s

/-- Digits, with single underscores between them. -/
def digits : Bool → ℕ → Text → Option ℕ
  | after, n, [] => if after then some n else none
  | after, n, c :: s =>
    if c.isDigit then digits true (10 * n + (c.toNat - '0'.toNat)) s
    else if c = '_' ∧ after then digits false n s
    else none

/-- `int(s)`, of a text without blanks; `none` where it raises `ValueError`. -/
def int? : Text → Option ℤ
  | '+' :: s => (digits false 0 s).map (↑)
  | '-' :: s => (digits false 0 s).map fun n => -(n : ℤ)
  | s => (digits false 0 s).map (↑)

/-- What `print` writes. -/
def print (s : Text) : Text := s ++ ['\n']

/-! ## The wiper -/

/-- `round(a / b)`; a tie does not come up (`b` is odd). -/
def roundDiv (a b : ℕ) : ℕ := (2 * a + b) / (2 * b)

def maxSpeedAtHighTap : Bool := true

/-- The tap of a duty in `0..255`. -/
def tapOf (duty : ℕ) : ℕ :=
  if maxSpeedAtHighTap then roundDiv (duty * 99) 255 else 99 - roundDiv (duty * 99) 255

/-- One falling edge of INC; the chip does not wrap around at its endpoints. -/
def pulse (up : Bool) (wiper : ℕ) : ℕ :=
  if up then (if wiper < 99 then wiper + 1 else wiper) else wiper - 1

def moveWiper (up : Bool) (steps : ℤ) (wiper : ℕ) : ℕ :=
  if steps ≤ 0 then wiper
  else (pulse up)^[(if steps > 100 then 100 else steps).toNat] wiper

theorem pulse_up {wiper : ℕ} : ∀ {n : ℕ}, wiper + n ≤ 99 → (pulse true)^[n] wiper = wiper + n
  | 0, _ => rfl
  | n + 1, h => by
    rw [Function.iterate_succ_apply', pulse_up (n := n) (by omega)]
    simp only [pulse, if_true]
    rw [if_pos (by omega)]
    rfl

theorem pulse_down {wiper : ℕ} : ∀ n : ℕ, (pulse false)^[n] wiper = wiper - n
  | 0 => rfl
  | n + 1 => by
    rw [Function.iterate_succ_apply', pulse_down n]
    rfl

/-- The wiper and the position the firmware takes it to be in. -/
structure Dial where
  wiper : ℕ
  currentTap : ℕ
  homed : wiper = currentTap
  inRange : currentTap ≤ 99

/-- The two are equal, so one of them is enough to tell dials apart. -/
theorem Dial.ext_tap {d e : Dial} (h : d.currentTap = e.currentTap) : d = e := by
  cases d with
  | mk w t hd _ =>
    cases e with
    | mk w' t' he _ =>
      cases h
      cases hd.trans he.symm
      rfl

/-- From a wiper anywhere. -/
def homeWiperLow (wiper : ℕ) (h : wiper ≤ 99) : Dial where
  wiper := moveWiper false 100 wiper
  currentTap := 0
  homed := by
    simp only [moveWiper]
    rw [if_neg (by omega)]
    change (pulse false)^[100] wiper = 0
    rw [pulse_down]
    omega
  inRange := by omega

/-- Where `set_tap` moves the wiper to. -/
theorem moveWiper_to {wiper tap target : ℕ} (hw : wiper = tap) (ht : tap ≤ 99)
    (hr : target ≤ 99) :
    (if target > tap then moveWiper true ((target : ℤ) - tap) wiper
      else if target < tap then moveWiper false ((tap : ℤ) - target) wiper else wiper) =
        target := by
  subst hw
  split
  case isTrue h =>
    rw [moveWiper, if_neg (by omega), if_neg (by omega), pulse_up (by omega)]
    omega
  case isFalse h =>
    split
    case isTrue h' =>
      rw [moveWiper, if_neg (by omega), if_neg (by omega), pulse_down]
      omega
    case isFalse h' => omega

/-- `target` as `set_tap` clamps it. -/
def clampTap (target : ℤ) : ℕ := (if target < 0 then 0 else if target > 99 then 99 else target).toNat

theorem clampTap_le (target : ℤ) : clampTap target ≤ 99 := by
  unfold clampTap
  split
  · decide
  · split <;> omega

def setTap (target : ℤ) (d : Dial) : Dial where
  wiper :=
    if clampTap target > d.currentTap then
      moveWiper true ((clampTap target : ℤ) - d.currentTap) d.wiper
    else if clampTap target < d.currentTap then
      moveWiper false ((d.currentTap : ℤ) - clampTap target) d.wiper
    else d.wiper
  currentTap := clampTap target
  homed := moveWiper_to d.homed d.inRange (clampTap_le target)
  inRange := clampTap_le target

def setDutyByte (duty : ℤ) (d : Dial) : Dial :=
  setTap (tapOf (if duty < 0 then 0 else if duty > 255 then 255 else duty).toNat) d

theorem tapOf_le {duty : ℕ} (h : duty ≤ 255) : tapOf duty ≤ 99 := by
  simp only [tapOf, maxSpeedAtHighTap, if_true, roundDiv]
  omega

theorem setDutyByte_tap {duty : ℕ} (h : duty ≤ 255) (d : Dial) :
    (setDutyByte duty d).currentTap = tapOf duty := by
  have ht := tapOf_le h
  have hc : (if (duty : ℤ) < 0 then (0 : ℤ) else if (duty : ℤ) > 255 then 255 else duty) = duty := by
    rw [if_neg (by omega), if_neg (by omega)]
  simp only [setDutyByte, setTap, hc, Int.toNat_natCast, clampTap]
  rw [if_neg (by omega), if_neg (by omega), Int.toNat_natCast]

/-- Where the dial stood before does not matter. -/
theorem setDutyByte_const (duty : ℤ) (d e : Dial) : setDutyByte duty d = setDutyByte duty e :=
  Dial.ext_tap rfl

/-! ## The clock -/

def ticksPeriod : ℕ := 2 ^ 30

def ticksMs (clock : ℕ) : ℕ := clock % ticksPeriod

def ticksDiff (a b : ℕ) : ℤ :=
  ((a : ℤ) - b + ticksPeriod / 2) % ticksPeriod - ticksPeriod / 2

/-- Right as long as less than half the period has passed. -/
theorem ticksDiff_ticksMs {a b : ℕ} (hab : b ≤ a) (h : a - b < 2 ^ 29) :
    ticksDiff (ticksMs a) (ticksMs b) = (a : ℤ) - b := by
  unfold ticksDiff ticksMs ticksPeriod
  omega

/-! ## The command loop -/

def watchdogS : ℕ := 5

def rpmPeriodMs : ℕ := 1000

structure Firmware where
  dial : Dial
  buf : Text
  lastCmdMs : ℕ
  lastRpmMs : ℕ
  watchdogActive : Bool

def duty : Text := ['D', 'U', 'T', 'Y']

def ping : Text := ['P', 'I', 'N', 'G']

def boot : Text := ['B', 'O', 'O', 'T']

/-- A valid command was heard at `t`. -/
def Firmware.heard (f : Firmware) (t : ℕ) : Firmware :=
  { f with lastCmdMs := ticksMs t, watchdogActive := false }

/-- A complete line. -/
def handleLine (line : Text) (t : ℕ) (f : Firmware) : Firmware × Text :=
  if duty.isPrefixOf line then
    match split line with
    | [_, arg] =>
      match int? arg with
      | some d =>
        if d < 0 ∨ d > 255 then (f, print "ERR duty-range".toList)
        else ({ f with dial := setDutyByte d f.dial }.heard t, print ['O', 'K'])
      | none => (f, print "ERR bad-duty".toList)
    | _ => (f, print "ERR bad-duty".toList)
  else if line = ping then (f.heard t, print ['O', 'K'])
  else if line = [] then (f, [])
  else (f, print "ERR unknown".toList)

/-- One character of `sys.stdin`. -/
def readChar (ch : Char) (t : ℕ) (f : Firmware) : Firmware × Text :=
  if ch = '\n' ∨ ch = '\r' then handleLine (strip f.buf) t { f with buf := [] }
  else if (f.buf ++ [ch]).length > 64 then
    ({ f with buf := [] }, print "ERR line-too-long".toList)
  else ({ f with buf := f.buf ++ [ch] }, [])

/-- Whether the watchdog fires. -/
def fires (now : ℕ) (f : Firmware) : Bool :=
  decide (ticksDiff (ticksMs now) f.lastCmdMs > watchdogS * 1000) && !f.watchdogActive

/-- Maximum cooling. -/
def Firmware.full (f : Firmware) : Firmware :=
  { f with dial := setDutyByte 255 f.dial, watchdogActive := true }

def checkWatchdog (now : ℕ) (f : Firmware) : Firmware :=
  if fires now f then f.full else f

def reportRpm (now : ℕ) (f : Firmware) : Firmware × Text :=
  if ticksDiff (ticksMs now) f.lastRpmMs ≥ rpmPeriodMs then
    ({ f with lastRpmMs := ticksMs now }, print ['R', 'P', 'M', ' ', '0'])
  else (f, [])

/-- The poll and the read at the start of a round. -/
def readInput (ch : Option Char) (t : ℕ) (f : Firmware) : Firmware × Text :=
  match ch with
  | some ch => readChar ch t f
  | none => (f, [])

/-- One round of `while True`: what `poll` found, the clock at the command and at the check. -/
def round (ch : Option Char) (t now : ℕ) (f : Firmware) : Firmware × Text :=
  let r := readInput ch t f
  let p := reportRpm now (checkWatchdog now r.1)
  (p.1, r.2 ++ p.2)

/-- The safe startup, from a wiper anywhere. -/
def startup (wiper : ℕ) (h : wiper ≤ 99) (now : ℕ) : Firmware :=
  ⟨setDutyByte 255 (homeWiperLow wiper h), [], ticksMs now, ticksMs now, false⟩

end SparkDeck.Fan
