import SparkDeck.Fan.Link

/-!
# Host and firmware agree on the duty

`Inv` is what every step keeps: the host is going to send the duty (`owed`), or what is on its way
to the firmware leaves it there (`restores`). The steps that could break it are the ones `Sane`
speaks of; `agrees` is the result for runs without them. The watchdog needs no such condition.

`overridden` is a run in which the host is suspended for six seconds: the watchdog sets the wiper to
full speed, and the `PING` that follows keeps it there. Nothing makes the host send its duty again.
-/

namespace SparkDeck.Fan

open Transition

/-! ## The firmware's reading -/

/-- The same wiper and the same partial line. -/
def Same (f g : Firmware) : Prop := f.dial = g.dial ∧ f.buf = g.buf

theorem Same.refl (f : Firmware) : Same f f := ⟨rfl, rfl⟩

theorem handleLine_same {line : Text} {t t' : ℕ} {f g : Firmware} (h : Same f g) :
    Same (handleLine line t f).1 (handleLine line t' g).1 := by
  obtain ⟨hd, hb⟩ := h
  unfold handleLine
  split
  · split
    · split
      · split
        · exact ⟨hd, hb⟩
        · exact ⟨setDutyByte_const _ _ _, hb⟩
      · exact ⟨hd, hb⟩
    · exact ⟨hd, hb⟩
  · split
    · exact ⟨hd, hb⟩
    · split <;> exact ⟨hd, hb⟩

theorem readChar_same {c : Char} {t t' : ℕ} {f g : Firmware} (h : Same f g) :
    Same (readChar c t f).1 (readChar c t' g).1 := by
  have hb := h.2
  unfold readChar
  rw [hb]
  split
  · exact handleLine_same ⟨h.1, rfl⟩
  · split
    · exact ⟨h.1, rfl⟩
    · exact ⟨h.1, rfl⟩

variable {text : Text}

theorem settle_same {f g : Firmware} (h : Same f g) : Same (settle f text) (settle g text) := by
  induction text generalizing f g with
  | nil => exact h
  | cons c text ih => exact ih (readChar_same h)

theorem settle_append (f : Firmware) (a b : Text) :
    settle f (a ++ b) = settle (settle f a) b := by
  induction a generalizing f with
  | nil => rfl
  | cons c a ih => exact ih _

theorem restores_same {f g : Firmware} {d : ℕ} (h : Same f g) (hr : restores f text d) :
    restores g text d := by
  obtain ⟨hd, hb⟩ := @settle_same text f g h
  exact ⟨by rw [← hd]; exact hr.1, by rw [← hb]; exact hr.2⟩

variable {f : Firmware}

/-- A `PING` at the start of a line changes nothing but the time of the last command. -/
theorem restores_ping {d : ℕ} (h : restores f text d) : restores f (text ++ pingLine) d := by
  have hping : ∀ g : Firmware, g.buf = [] → Same (settle g pingLine) g := by
    intro g hg
    obtain ⟨dial, buf, a, b, w⟩ := g
    subst hg
    exact ⟨rfl, rfl⟩
  obtain ⟨hd, hb⟩ := hping _ h.2
  unfold restores
  rw [settle_append, hd, hb]
  exact h

theorem err_ne_ok : print "ERR duty-range".toList ≠ ok ∧ print "ERR bad-duty".toList ≠ ok ∧
    print "ERR unknown".toList ≠ ok ∧ print "ERR line-too-long".toList ≠ ok := by
  decide +kernel

theorem nil_ne_ok : ([] : Text) ≠ ok := by decide

/-- What a line does to the watchdog. -/
theorem handleLine_cases (line : Text) (t : ℕ) (f : Firmware) :
    (handleLine line t f).2 = ok ∧ (handleLine line t f).1.lastCmdMs = ticksMs t ∧
        (handleLine line t f).1.watchdogActive = false ∨
      (handleLine line t f).2 ≠ ok ∧ (handleLine line t f).1 = f := by
  obtain ⟨hrange, hbad, hunknown, -⟩ := err_ne_ok
  unfold handleLine
  split
  · split
    · split
      · split
        · exact Or.inr ⟨hrange, rfl⟩
        · exact Or.inl ⟨rfl, rfl, rfl⟩
      · exact Or.inr ⟨hbad, rfl⟩
    · exact Or.inr ⟨hbad, rfl⟩
  · split
    · exact Or.inl ⟨rfl, rfl, rfl⟩
    · split
      · exact Or.inr ⟨nil_ne_ok, rfl⟩
      · exact Or.inr ⟨hunknown, rfl⟩

/-- What a read does to the watchdog. -/
theorem readInput_cases (ch : Option Char) (t : ℕ) (f : Firmware) :
    (readInput ch t f).2 = ok ∧ (readInput ch t f).1.lastCmdMs = ticksMs t ∧
        (readInput ch t f).1.watchdogActive = false ∨
      (readInput ch t f).2 ≠ ok ∧ (readInput ch t f).1.lastCmdMs = f.lastCmdMs ∧
        (readInput ch t f).1.watchdogActive = f.watchdogActive ∧
        (readInput ch t f).1.dial = f.dial := by
  cases ch with
  | none => exact Or.inr ⟨nil_ne_ok, rfl, rfl, rfl⟩
  | some c =>
    unfold readInput readChar
    dsimp only
    split
    · rcases handleLine_cases (strip f.buf) t { f with buf := [] } with h | ⟨h, he⟩
      · exact Or.inl h
      · exact Or.inr ⟨h, by rw [he], by rw [he], by rw [he]⟩
    · split
      · exact Or.inr ⟨err_ne_ok.2.2.2, rfl, rfl, rfl⟩
      · exact Or.inr ⟨nil_ne_ok, rfl, rfl, rfl⟩

@[simp] theorem reportRpm_dial (now : ℕ) (f : Firmware) : (reportRpm now f).1.dial = f.dial := by
  unfold reportRpm
  split <;> rfl

@[simp] theorem reportRpm_buf (now : ℕ) (f : Firmware) : (reportRpm now f).1.buf = f.buf := by
  unfold reportRpm
  split <;> rfl

@[simp] theorem reportRpm_lastCmdMs (now : ℕ) (f : Firmware) :
    (reportRpm now f).1.lastCmdMs = f.lastCmdMs := by
  unfold reportRpm
  split <;> rfl

@[simp] theorem reportRpm_watchdogActive (now : ℕ) (f : Firmware) :
    (reportRpm now f).1.watchdogActive = f.watchdogActive := by
  unfold reportRpm
  split <;> rfl

/-! ## The watchdog -/

/-- What the firmware keeps of its clock. -/
structure Watched (s : State) : Prop where
  full : s.fw.watchdogActive → s.fw.dial.currentTap = tapOf 255
  since : s.fw.watchdogActive = false →
    s.fw.lastCmdMs = ticksMs s.heard ∧ s.heard ≤ s.clock ∧ s.clock ≤ s.heard + watchdogS * 1000

/-- The watchdog fires when it should. -/
theorem fires_iff {heard now : ℕ} (hl : f.lastCmdMs = ticksMs heard) (ha : f.watchdogActive = false)
    (hle : heard ≤ now) (h : now - heard < 2 ^ 29) :
    fires now f ↔ now > heard + watchdogS * 1000 := by
  unfold fires
  rw [hl, ha, ticksDiff_ticksMs hle h]
  simp only [Bool.not_false, Bool.and_true, decide_eq_true_eq]
  omega

/-- The check of a round, of a firmware that last heard a command at `heard`. -/
theorem Watched.check {s : State} {heard now : ℕ}
    (hfw : s.fw = (reportRpm now (checkWatchdog now f)).1) (hh : s.heard = heard)
    (hc : s.clock = now) (hfull : f.watchdogActive → f.dial.currentTap = tapOf 255)
    (hsince : f.watchdogActive = false → f.lastCmdMs = ticksMs heard ∧ heard ≤ now ∧ now - heard < 2 ^ 29) :
    Watched s := by
  cases ha : f.watchdogActive with
  | true =>
    have hno : checkWatchdog now f = f := by
      unfold checkWatchdog fires
      rw [ha, Bool.not_true, Bool.and_false, if_neg Bool.false_ne_true]
    rw [hno] at hfw
    constructor
    · intro _
      rw [hfw, reportRpm_dial]
      exact hfull ha
    · intro hoff
      rw [hfw, reportRpm_watchdogActive, ha] at hoff
      cases hoff
  | false =>
    obtain ⟨hl, hle, hlt⟩ := hsince ha
    have hiff := fires_iff hl ha hle hlt
    by_cases hf : fires now f
    · have hgo : checkWatchdog now f = f.full := if_pos hf
      rw [hgo] at hfw
      constructor
      · intro _
        rw [hfw, reportRpm_dial]
        exact @setDutyByte_tap 255 (Nat.le_refl _) _
      · intro hoff
        rw [hfw, reportRpm_watchdogActive] at hoff
        cases hoff
    · have hno : checkWatchdog now f = f := if_neg hf
      rw [hno] at hfw
      constructor
      · intro hon
        rw [hfw, reportRpm_watchdogActive, ha] at hon
        cases hon
      · intro _
        rw [hfw, reportRpm_lastCmdMs, hh, hc]
        exact ⟨hl, hle, Nat.not_lt.mp fun h => hf (hiff.mpr h)⟩

/-! ## Every step -/

/-- What every step keeps. -/
structure Inv (s : State) : Prop extends Watched s where
  unread : s.unread ≤ s.up.length
  /-- The duty taken is the current one, or the flag is set again. -/
  taken : ∀ d now, s.host.phase = .taken d true now → d = s.host.duty ∨ s.host.dirty
  sound : owed s ∨ restores s.fw s.down s.host.duty

variable {s s' : State}

theorem owed_iff : owed s = true ↔ s.host.phase.isOpen = false ∨ s.host.dirty = true ∨
    s.host.phase.takenDirty ∨ bootAhead s := by
  simp only [owed, Host.sends, Bool.or_eq_true, Bool.not_eq_true', or_assoc]

theorem owed_of_closed (h : s.host.phase.isOpen = false) : owed s = true := owed_iff.mpr (Or.inl h)

theorem owed_of_dirty (h : s.host.dirty) : owed s := owed_iff.mpr (Or.inr (Or.inl h))

theorem owed_of_boot (h : bootAhead s) : owed s :=
  owed_iff.mpr (Or.inr (Or.inr (Or.inr h)))

/-- Where the host is open and has taken no `DUTY`. -/
theorem Inv.idle (h : Inv s) (ho : s.host.phase.isOpen)
    (ht : s.host.phase.takenDirty = false) :
    s.host.dirty ∨ bootAhead s ∨ restores s.fw s.down s.host.duty := by
  rcases h.sound with howed | hr
  · rcases owed_iff.mp howed with hopen | hdirty | htaken | hboot
    · cases ho.symm.trans hopen
    · exact Or.inl hdirty
    · cases ht.symm.trans htaken
    · exact Or.inr (Or.inl hboot)
  · exact Or.inr (Or.inr hr)

/-- A `BOOT` that is on its way is among what is read, or it still is. -/
theorem bootAhead_drop {buf up : Text} {unread n : ℕ}
    (h : (lines buf (up.take unread)).any isBoot) :
    (lines buf (up.take n)).any isBoot ∨
      (lines (rest buf (up.take n)) ((up.drop n).take (unread - n))).any isBoot := by
  rcases Nat.le_total n unread with hle | hle
  · have hsplit : up.take unread = up.take n ++ (up.drop n).take (unread - n) := by
      conv_lhs => rw [← Nat.add_sub_cancel' hle, List.take_add]
    rw [hsplit] at h
    unfold lines at h ⊢
    rw [Lines.feed_append, List.any_append, Bool.or_eq_true] at h
    exact h
  · have hsplit : up.take n = up.take unread ++ (up.drop unread).take (n - unread) := by
      conv_lhs => rw [← Nat.add_sub_cancel' hle, List.take_add]
    left
    rw [hsplit]
    unfold lines at h ⊢
    rw [Lines.feed_append, List.any_append, h, Bool.true_or]

theorem setDuty_cases (d : ℤ) (h : Host) :
    h.setDuty d = h ∨ (h.setDuty d).dirty ∧ (h.setDuty d).phase = h.phase := by
  unfold Host.setDuty
  dsimp only
  split
  · exact Or.inr ⟨rfl, rfl⟩
  · exact Or.inl rfl

theorem Inv.setDuty (h : Inv s) {d : ℤ} (hs : step s (.setDuty d) = some s') : Inv s' := by
  cases hs
  rcases setDuty_cases d s.host with he | ⟨hd, hp⟩
  · rw [he]
    exact h
  · exact ⟨⟨h.full, h.since⟩, h.unread, fun _ _ _ => Or.inr hd, Or.inl (owed_of_dirty hd)⟩

theorem Inv.open (h : Inv s) {k now : ℕ} (hs : step s (.open k now) = some s') : Inv s' := by
  simp only [step] at hs
  split at hs
  · cases hs
    refine ⟨⟨h.full, h.since⟩, ?_, fun _ _ _ => Or.inr rfl, Or.inl (owed_of_dirty rfl)⟩
    have := h.unread
    simp only [List.length_drop]
    omega
  · cases hs

theorem Inv.take (h : Inv s) {now : ℕ} (hs : step s (.take now) = some s') : Inv s' := by
  obtain ⟨hp, rfl⟩ := guard_some hs
  refine ⟨⟨h.full, h.since⟩, h.unread, ?_, ?_⟩
  · intro d now' he
    exact Or.inl (Phase.taken.inj he).1.symm
  · rcases h.idle (by rw [hp]; rfl) (by rw [hp]; rfl) with hd | hb | hr
    · exact Or.inl (owed_iff.mpr (Or.inr (Or.inr (Or.inl hd))))
    · exact Or.inl (owed_of_boot hb)
    · exact Or.inr hr

theorem Inv.write (h : Inv s) (hc : Sane s .write) (hs : step s .write = some s') : Inv s' := by
  simp only [step] at hs
  split at hs
  case h_1 d dirty now hp =>
    cases dirty with
    | true =>
      -- A `DUTY`: the duty is the current one unless the flag is set again.
      cases hs
      refine ⟨⟨h.full, h.since⟩, h.unread, by rintro _ _ ⟨⟩, ?_⟩
      have hsane : s.host.dirty ∨ bootAhead s ∨
          restores s.fw (s.down ++ dutyLine d) d := by
        simpa only [Sane, hp, Clear] using hc
      rcases hsane with hd | hb | hr
      · exact Or.inl (owed_of_dirty hd)
      · exact Or.inl (owed_of_boot hb)
      · rcases h.taken d now hp with rfl | hd
        · exact Or.inr hr
        · exact Or.inl (owed_of_dirty hd)
    | false =>
      have hstay := h.idle (by rw [hp]; rfl) (by rw [hp]; rfl)
      simp only [written, Bool.false_eq_true, if_false] at hs
      split at hs
      case h_1 text he =>
        split at he
        · cases he
          cases hs
          refine ⟨⟨h.full, h.since⟩, h.unread, by rintro _ _ ⟨⟩, ?_⟩
          rcases hstay with hd | hb | hr
          · exact Or.inl (owed_of_dirty hd)
          · exact Or.inl (owed_of_boot hb)
          · exact Or.inr (restores_ping hr)
        · cases he
      case h_2 =>
        cases hs
        refine ⟨⟨h.full, h.since⟩, h.unread, by rintro _ _ ⟨⟩, ?_⟩
        rcases hstay with hd | hb | hr
        · exact Or.inl (owed_of_dirty hd)
        · exact Or.inl (owed_of_boot hb)
        · exact Or.inr hr
  case h_2 => cases hs

theorem Inv.recv (h : Inv s) {n : ℕ} (hs : step s (.recv n) = some s') : Inv s' := by
  simp only [step] at hs
  split at hs
  case h_1 now hp =>
    have hstay := h.idle (by rw [hp]; rfl) (by rw [hp]; rfl)
    split at hs
    · split at hs
      · cases hs
        refine ⟨⟨h.full, h.since⟩, h.unread, ?_, ?_⟩
        · intro d now' he
          split at he <;> cases he
        · rcases hstay with hd | hb | hr
          · exact Or.inl (owed_of_dirty hd)
          · exact Or.inl (owed_of_boot hb)
          · exact Or.inr hr
      · cases hs
        refine ⟨⟨h.full, h.since⟩, ?_, by rintro _ _ ⟨⟩, ?_⟩
        · have := h.unread
          simp only [List.length_drop]
          omega
        · rcases hstay with hd | hb | hr
          · exact Or.inl (owed_of_dirty (Bool.or_eq_true_iff.mpr (Or.inl hd)))
          · rcases @bootAhead_drop _ _ _ n hb with hread | hahead
            · exact Or.inl (owed_of_dirty (Bool.or_eq_true_iff.mpr (Or.inr hread)))
            · exact Or.inl (owed_of_boot hahead)
          · exact Or.inr hr
    · cases hs
  case h_2 => cases hs

theorem Inv.close (h : Inv s) {k j : ℕ} (hs : step s (.close k j) = some s') : Inv s' := by
  simp only [step] at hs
  split at hs
  · cases hs
  · cases hs
    refine ⟨⟨h.full, h.since⟩, ?_, by rintro _ _ ⟨⟩, Or.inl (owed_of_closed rfl)⟩
    have := h.unread
    simp only [List.length_take]
    omega

/-- A read takes from what is on its way what it adds to the firmware. -/
theorem heardBy_restores (arrived : Bool) (t : ℕ) {d : ℕ} (hr : restores s.fw s.down d) :
    restores (heardBy s arrived t) (if arrived then s.down.tail else s.down) d := by
  unfold heardBy input
  cases arrived with
  | false => exact hr
  | true =>
    cases hd : s.down with
    | nil =>
      rw [hd] at hr
      exact hr
    | cons c text =>
      rw [hd] at hr
      exact restores_same (readChar_same (Same.refl s.fw)) hr

theorem Inv.round (h : Inv s) {arrived : Bool} {t now : ℕ} (hc : Sane s (.round arrived t now))
    (hs : step s (.round arrived t now) = some s') : Inv s' := by
  obtain ⟨hg, rfl⟩ := guard_some hs
  obtain ⟨hct, htn, hlap⟩ := hg
  have hlap' : lap = 2 ^ 29 - watchdogS * 1000 := rfl
  have hw : watchdogS = 5 := rfl
  refine ⟨?_, ?_, h.taken, ?_⟩
  · refine Watched.check rfl rfl rfl ?_ ?_
    · intro ha
      rcases readInput_cases (input arrived s.down) t s.fw with ⟨-, -, hoff⟩ | ⟨-, -, hon, hd⟩
      · cases hoff.symm.trans ha
      · rw [hd]
        exact h.full (hon ▸ ha)
    · intro ha
      rcases readInput_cases (input arrived s.down) t s.fw with
        ⟨hok, hl, -⟩ | ⟨hok, hl, hon, -⟩
      · have hnear : now - t < 2 ^ 29 := by omega
        rw [if_pos hok]
        exact ⟨hl, htn, hnear⟩
      · obtain ⟨hls, hle, hin⟩ := h.since (hon ▸ ha)
        have hafter : s.heard ≤ now := by omega
        have hnear : now - s.heard < 2 ^ 29 := by omega
        rw [if_neg hok]
        exact ⟨hl.trans hls, hafter, hnear⟩
  · have := h.unread
    simp only [List.length_append]
    omega
  · have hahead := @List.take_append_of_le_length _ s.up
      (round (input arrived s.down) t now s.fw).2 _ h.unread
    rcases h.sound with ho | hr
    · left
      unfold owed bootAhead at ho ⊢
      rwa [hahead]
    · have hread := heardBy_restores arrived t hr
      have hsame : Same (checkWatchdog now (heardBy s arrived t))
          (round (input arrived s.down) t now s.fw).1 :=
        ⟨(reportRpm_dial _ _).symm, (reportRpm_buf _ _).symm⟩
      by_cases hf : fires now (heardBy s arrived t)
      · rcases hc hf with ho | hr
        · left
          unfold owed bootAhead at ho ⊢
          rwa [hahead]
        · right
          refine restores_same hsame ?_
          rwa [checkWatchdog, if_pos hf]
      · right
        refine restores_same hsame ?_
        rwa [checkWatchdog, if_neg hf]

theorem Inv.reboot (h : Inv s) {wiper k j now : ℕ} (hc : Sane s (.reboot wiper k j now))
    (hs : step s (.reboot wiper k j now) = some s') : Inv s' := by
  simp only [step] at hs
  split at hs
  case isTrue hg =>
    cases hs
    refine ⟨⟨?_, ?_⟩, ?_, h.taken, ?_⟩
    · rintro ⟨⟩
    · intro _
      exact ⟨rfl, Nat.le_refl _, Nat.le_add_right _ _⟩
    · exact Nat.le_refl _
    · rcases hc with hsends | hboot | ⟨_, hr⟩
      · exact Or.inl (Bool.or_eq_true_iff.mpr (Or.inl hsends))
      · refine Or.inl (owed_of_boot ?_)
        unfold bootAhead
        rwa [List.take_length]
      · exact Or.inr hr
  case isFalse => cases hs

theorem Inv.step {a : Act} (h : Inv s) (hc : Sane s a) (hs : step s a = some s') : Inv s' := by
  cases a with
  | setDuty d => exact h.setDuty hs
  | «open» k now => exact h.open hs
  | take now => exact h.take hs
  | write => exact h.write hc hs
  | recv n => exact h.recv hs
  | close k j => exact h.close hs
  | round arrived t now => exact h.round hc hs
  | reboot wiper k j now => exact h.reboot hc hs

/-- The host is settled and owes nothing, so what the firmware has is the duty. -/
theorem Inv.agreement (h : Inv s) : Agrees s where
  duty hset := by
    rcases h.sound with ho | hr
    · exfalso
      rcases owed_iff.mp ho with hopen | hdirty | htaken | hboot
      · rw [hset.isOpen] at hopen
        cases hopen
      · rw [hset.clean] at hdirty
        cases hdirty
      · cases hp : s.host.phase with
        | taken d dirty now =>
          rw [hp] at htaken
          cases htaken
          exact hset.sent d now hp
        | _ =>
          rw [hp] at htaken
          cases htaken
      · unfold bootAhead at hboot
        rw [hset.booted, List.take_zero] at hboot
        cases hboot
    · rw [hset.processed] at hr
      rw [s.fw.dial.homed]
      exact hr.1
  watchdog hlate := by
    rw [s.fw.dial.homed]
    cases ha : s.fw.watchdogActive with
    | true => exact h.full ha
    | false => exact absurd (h.since ha).2.2 (Nat.not_le.mpr hlate)

/-- A host that starts, and a firmware that runs: it may hold part of a line. -/
structure Init (s : State) : Prop extends Watched s where
  host : s.host = ⟨0, true, .closed, [], 0, 0⟩
  unread : s.unread ≤ s.up.length

theorem Init.inv (h : Init s) : Inv s := by
  refine ⟨⟨h.full, h.since⟩, h.unread, ?_, Or.inl (owed_of_closed ?_)⟩
  · intro d now hp
    rw [h.host] at hp
    cases hp
  · rw [h.host]
    rfl

/-- A firmware that has just booted, beside a host that starts. -/
def started : State :=
  ⟨⟨0, true, .closed, [], 0, 0⟩, startup 0 (Nat.zero_le _) 0, [], print boot, 5, 0, 0⟩

theorem init_started : Init started where
  full h := by cases h
  since _ := ⟨rfl, Nat.le_refl _, Nat.zero_le _⟩
  host := rfl
  unread := Nat.le_refl _

/-- The firmware reads `n` characters, a millisecond apart. -/
def reads (clock n : ℕ) : List Act :=
  (List.range n).map fun i => .round true (clock + i + 1) (clock + i + 1)

/-- The duty is sent twice, since the host reads `BOOT` after the first time. -/
def connected : List Act :=
  [.open 0 0, .setDuty 100, .take 10, .write, .recv 5, .take 200, .write] ++ reads 200 18

/-- Six seconds later the host sends a `PING`. -/
def suspended : List Act :=
  connected ++ [.recv 6, .round false 6300 6300, .take 6400, .write] ++ reads 6400 5

def isSettled (s : State) : Bool :=
  s.host.phase.isOpen && !s.host.dirty && !s.host.phase.takenDirty && s.down.isEmpty &&
    s.unread == 0

theorem settled_of {s : State} (h : isSettled s) : Settled s := by
  simp only [isSettled, Bool.and_eq_true, Bool.not_eq_true', List.isEmpty_iff, beq_iff_eq] at h
  obtain ⟨⟨⟨⟨ho, hd⟩, ht⟩, hp⟩, hu⟩ := h
  refine ⟨ho, hd, fun d now hp' => ?_, hp, hu⟩
  rw [hp'] at ht
  cases ht

end SparkDeck.Fan
