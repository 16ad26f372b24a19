import SparkDeck.Lib.Lines
import SparkDeck.Lib.Transition
import SparkDeck.Fan.Firmware

/-!
# The serial link

`SerialLink` (`Fan/fancontroller/serial_link.py`) and the firmware, joined by two streams of
characters. What is in a stream may stay there for as long as the schedule likes; `close` drops
what the connection had not delivered, also in the middle of a line, and so does a reboot.

The worker thread is cut where `set_duty` can come in between: before it takes the duty and the
flag (`take`), between that and the write (`write`), and before the read (`recv`). Times are in
milliseconds. What the worker prints and reports (`dbg`, `on_status`, `on_rpm`) is left out, and so
is the mock.
-/

namespace SparkDeck.Fan

open Transition

inductive Phase where
  | closed
  /-- At the top of the inner loop. -/
  | top
  /-- It has taken `duty` and `dirty`, and the time. -/
  | taken (duty : ℕ) (dirty : Bool) (now : ℕ)
  | reading (now : ℕ)
  /-- Out of the inner loop. -/
  | closing
  deriving DecidableEq

def Phase.isOpen : Phase → Bool
  | .closed => false
  | .closing => false
  | _ => true

structure Host where
  duty : ℕ
  dirty : Bool
  phase : Phase
  buf : Text
  lastSend : ℕ
  lastRecv : ℕ

/-- `set_duty` -/
def Host.setDuty (duty : ℤ) (h : Host) : Host :=
  let duty := (max 0 (min 255 duty)).toNat
  if duty ≠ h.duty then { h with duty := duty, dirty := true } else h

/-- `f"DUTY {duty}\n"` -/
def dutyLine (d : ℕ) : Text := duty ++ ' ' :: Nat.toDigits 10 d ++ ['\n']

def pingLine : Text := ping ++ ['\n']

/-- Whether a line is `BOOT`. -/
def isBoot (line : Text) : Bool := strip line == boot

/-- The lines of a text that end in it. -/
def lines (buf data : Text) : List Text := (Lines.feed '\n' buf data).1

/-- What follows the last of them. -/
def rest (buf data : Text) : Text := (Lines.feed '\n' buf data).2

structure State where
  host : Host
  fw : Firmware
  /-- To the firmware. -/
  down : Text
  /-- To the host. -/
  up : Text
  /-- How much of `up` was there when the firmware last booted, that included. -/
  unread : ℕ
  /-- The firmware's clock. -/
  clock : ℕ
  /-- When it last heard a valid command, or booted. -/
  heard : ℕ

inductive Act where
  | setDuty (duty : ℤ)
  /-- The port is opened; `k` characters of what was on the way are gone. -/
  | open (k now : ℕ)
  | take (now : ℕ)
  | write
  /-- `n` characters come in before the read returns. -/
  | recv (n : ℕ)
  /-- An exception or silence; what lies beyond `k` and `j` characters is lost. -/
  | close (k j : ℕ)
  /-- A round of the firmware's loop. -/
  | round (arrived : Bool) (t now : ℕ)
  /-- With the wiper anywhere; `k` characters of the input are lost, and the output after `j`. -/
  | reboot (wiper k j now : ℕ)

/-- What the worker writes once it has taken the duty and the flag. -/
def written (duty : ℕ) (dirty : Bool) (now lastSend : ℕ) : Option Text :=
  if dirty then some (dutyLine duty)
  else if now > lastSend + 1000 then some pingLine
  else none

def silenceMs : ℕ := 5000

/-- A round of the firmware's loop is over in less than half the period of its clock. -/
def lap : ℕ := 2 ^ 29 - watchdogS * 1000

/-- The input a round finds. -/
def input (arrived : Bool) (down : Text) : Option Char := if arrived then down.head? else none

/-- The firmware answers `OK` to a valid command, and to nothing else. -/
def ok : Text := print ['O', 'K']

def step (s : State) : Act → Option State
  | .setDuty d => some { s with host := s.host.setDuty d }
  | .open k now =>
    if s.host.phase = .closed then
      some { s with
        host := { s.host with
          phase := .top, dirty := true, buf := [], lastSend := 0, lastRecv := now }
        up := s.up.drop k
        unread := s.unread - k }
    else none
  | .take now =>
    if s.host.phase = .top then
      some { s with
        host := { s.host with phase := .taken s.host.duty s.host.dirty now, dirty := false } }
    else none
  | .write =>
    match s.host.phase with
    | .taken d dirty now =>
      match written d dirty now s.host.lastSend with
      | some text =>
        some { s with
          host := { s.host with phase := .reading now, lastSend := now }
          down := s.down ++ text }
      | none => some { s with host := { s.host with phase := .reading now } }
    | _ => none
  | .recv n =>
    match s.host.phase with
    | .reading now =>
      if n ≤ 256 ∧ n ≤ s.up.length then
        if n = 0 then
          some { s with
            host := { s.host with
              phase := if now > s.host.lastRecv + silenceMs then .closing else .top } }
        else
          let data := s.up.take n
          some { s with
            host := { s.host with
              phase := .top
              lastRecv := now
              buf := rest s.host.buf data
              dirty := s.host.dirty || (lines s.host.buf data).any isBoot }
            up := s.up.drop n
            unread := s.unread - n }
      else none
    | _ => none
  | .close k j =>
    if s.host.phase = .closed then none
    else
      some { s with
        host := { s.host with phase := .closed }
        down := s.down.take k
        up := s.up.take j
        unread := min s.unread j }
  | .round arrived t now =>
    if s.clock ≤ t ∧ t ≤ now ∧ now < s.clock + lap then
      let ch := input arrived s.down
      let r := round ch t now s.fw
      some { s with
        fw := r.1
        down := if arrived then s.down.tail else s.down
        up := s.up ++ r.2
        clock := now
        heard := if (readInput ch t s.fw).2 = ok then t else s.heard }
    else none
  | .reboot wiper k j now =>
    if h : wiper ≤ 99 ∧ s.clock ≤ now then
      let up := s.up.take j ++ print boot
      some { s with
        fw := startup wiper h.1 now
        down := s.down.drop k
        up := up
        unread := up.length
        clock := now
        heard := now }
    else none

/-! ## What the two parties agree on -/

/-- The connection has been open for long enough: the host has nothing left to send since its last
`set_duty`, nor a `BOOT` to read, and the firmware has processed every character. -/
structure Settled (s : State) : Prop where
  isOpen : s.host.phase.isOpen
  clean : s.host.dirty = false
  sent : ∀ d now, s.host.phase ≠ .taken d true now
  processed : s.down = []
  booted : s.unread = 0

structure Agrees (s : State) : Prop where
  duty : Settled s → s.fw.dial.wiper = tapOf s.host.duty
  watchdog : s.heard + watchdogS * 1000 < s.clock → s.fw.dial.wiper = tapOf 255

/-! ## Where they can get out of step -/

/-- The firmware once it has read `text`, however late and with no watchdog. -/
def settle (f : Firmware) : Text → Firmware
  | [] => f
  | c :: text => settle (readChar c 0 f).1 text

/-- What is on its way to the firmware leaves it at a duty, and at the start of a line. -/
def restores (f : Firmware) (text : Text) (d : ℕ) : Prop :=
  (settle f text).dial.currentTap = tapOf d ∧ (settle f text).buf = []

instance (f : Firmware) (text : Text) (d : ℕ) : Decidable (restores f text d) :=
  inferInstanceAs (Decidable (_ ∧ _))

def Phase.takenDirty : Phase → Bool
  | .taken _ dirty _ => dirty
  | _ => false

/-- A line `BOOT` is on its way to the host. -/
def bootAhead (s : State) : Bool := (lines s.host.buf (s.up.take s.unread)).any isBoot

/-- The host is about to send the duty, or will once it is connected again. -/
def Host.sends (h : Host) : Bool := !h.phase.isOpen || h.dirty || h.phase.takenDirty

/-- The host is going to send the duty by itself. -/
def owed (s : State) : Bool := s.host.sends || bootAhead s

/-- The firmware after the read of a round. -/
def heardBy (s : State) (arrived : Bool) (t : ℕ) : Firmware :=
  (readInput (input arrived s.down) t s.fw).1

/-- A `DUTY` that is to be written is read as such, or another is going to be sent. -/
def Clear (s : State) : Phase → Prop
  | .taken d true _ =>
    s.host.dirty ∨ bootAhead s ∨ restores s.fw (s.down ++ dutyLine d) d
  | _ => True

instance (s : State) : ∀ p, Decidable (Clear s p)
  | .taken _ true _ => inferInstanceAs (Decidable (_ ∨ _ ∨ _))
  | .taken _ false _ => isTrue trivial
  | .closed => isTrue trivial
  | .top => isTrue trivial
  | .reading _ => isTrue trivial
  | .closing => isTrue trivial

/-- What the two do not see to: that the watchdog sets the duty of no host that is not going to send
its own; that a `DUTY` does not follow a part of a line; and that the `BOOT` of a reboot does not
either. -/
def Sane (s : State) : Act → Prop
  | .round arrived t now =>
    fires now (heardBy s arrived t) →
      owed s ∨
        restores (heardBy s arrived t).full (if arrived then s.down.tail else s.down) s.host.duty
  | .write => Clear s s.host.phase
  | .reboot wiper k j now =>
    s.host.sends ∨ (lines s.host.buf (s.up.take j ++ print boot)).any isBoot ∨
      ∃ h : wiper ≤ 99, restores (startup wiper h now) (s.down.drop k) s.host.duty
  | _ => True

instance (s : State) : ∀ a, Decidable (Sane s a)
  | .round _ _ _ => inferInstanceAs (Decidable (_ → _ ∨ _))
  | .write => inferInstanceAs (Decidable (Clear s s.host.phase))
  | .reboot _ _ _ _ => inferInstanceAs (Decidable (_ ∨ _ ∨ _))
  | .setDuty _ => isTrue trivial
  | .open _ _ => isTrue trivial
  | .take _ => isTrue trivial
  | .recv _ => isTrue trivial
  | .close _ _ => isTrue trivial

end SparkDeck.Fan
