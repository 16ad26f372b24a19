import Mathlib.Data.Nat.Cast.Order.Ring
import SparkDeck.LiveHistory.Steps

/-!
# The timeline of a series

`timeline`: with a clock that does not go back, however late the ticks are and however the interval
changes, the buckets of a series close one after another, none after the open one began.
-/

namespace SparkDeck.LiveHistory

open Transition

/-- An interval is one second or more, and the clock is not behind the beginnings of the open
buckets, which are times of earlier ticks. -/
def onTime (s : State) : Label → Bool
  | .tick now _ interval _ => 1 ≤ interval && s.history.series.all (·.2.openStartedAt ≤ now)
  | _ => true

structure Series.Ordered (s : Series) : Prop where
  closed : s.closed.Pairwise fun a b => a.1 < b.1
  before : ∀ b ∈ s.closed, b.1 ≤ s.openStartedAt

namespace Series

variable {s t : Series}

theorem Ordered.of_same (h : Ordered s) (hc : t.closed = s.closed)
    (ho : t.openStartedAt = s.openStartedAt) : Ordered t :=
  ⟨hc ▸ h.closed, by rw [hc, ho]; exact h.before⟩

theorem gather_times (entry : Option (List Record)) (s : Series) :
    (s.gather entry).closed = s.closed ∧ (s.gather entry).openStartedAt = s.openStartedAt := by
  have hfold (rs : List Record) (u : Series) : (rs.foldl countPrompt u).closed = u.closed ∧
      (rs.foldl countPrompt u).openStartedAt = u.openStartedAt := by
    induction rs generalizing u with
    | nil => exact ⟨rfl, rfl⟩
    | cons r rs ih =>
      rw [List.foldl_cons, (ih _).1, (ih _).2, countPrompt]
      split <;> exact ⟨rfl, rfl⟩
  cases entry with
  | none => exact ⟨rfl, rfl⟩
  | some rs => exact hfold rs _

theorem Ordered.accumulate (h : Ordered s) {now : ℚ} (hle : s.openStartedAt ≤ now) {interval : ℕ}
    (hi : 1 ≤ interval) (entry : Option (List Record)) :
    Ordered (s.accumulate entry now interval) := by
  obtain ⟨hc, ho⟩ := gather_times entry s
  unfold Series.accumulate
  split
  case isFalse => exact h.of_same hc ho
  case isTrue hdue =>
    -- the boundary is after the beginning of the bucket, and not after the tick
    have hlt : s.openStartedAt < s.openStartedAt + interval :=
      lt_add_of_pos_right _ (Nat.cast_pos.mpr hi)
    rw [closeBucket, if_neg (gather_samples entry s), hc]
    refine ⟨List.pairwise_append.mpr ⟨h.closed, List.pairwise_singleton _ _, fun a ha b hb => ?_⟩,
      fun b hb => ?_⟩
    · rw [List.mem_singleton.mp hb]
      exact (h.before a ha).trans_lt hlt
    · obtain hb | hb := List.mem_append.mp hb
      · exact (h.before b hb).trans hle
      · rw [List.mem_singleton.mp hb]
        exact le_sub_iff_add_le'.mp hdue

end Series

variable {s t : State} {l : Label}

theorem step_ordered (h : ∀ z ∈ s.history.series, z.2.Ordered) (hc : onTime s l)
    (hs : step s l = some t) : ∀ z ∈ t.history.series, z.2.Ordered := by
  intro z hz
  cases step_call hs with
  | write hw =>
    obtain ⟨q, -, r, -, rfl⟩ := hw
    exact h z hz
  | skip | start hid => exact h z hz
  | @«end» r enabled hr =>
    obtain ⟨w, hw, heq⟩ := History.mem_leave.mp hz
    have hwo : w.Ordered := by
      split at hw
      case isFalse => exact h _ hw
      case isTrue =>
        obtain ⟨-, hsame⟩ | ⟨v, hv, hset⟩ := History.end_series s.history r
        · exact h _ (hsame ▸ hw)
        · obtain hnew | hw := Assoc.mem_set (hset ▸ hw)
          · rw [(Prod.mk.inj hnew).2]
            exact (h _ (Assoc.mem_of_get hv.1)).of_same rfl rfl
          · exact h _ hw
    exact hwo.of_same (by rw [heq]) (by rw [heq])
  | @tick now admitted interval =>
    obtain ⟨w, hw, rfl⟩ := List.mem_map.mp ((History.retire_sublist _ _).subset hz)
    simp only [onTime, Bool.and_eq_true, decide_eq_true_eq, List.all_eq_true] at hc
    obtain ⟨hi, hnow⟩ := hc
    have hwo : w.2.Ordered ∧ w.2.openStartedAt ≤ now := by
      obtain hw | hw := List.mem_append.mp hw
      · exact ⟨h w hw, hnow w hw⟩
      · obtain ⟨key, -, rfl⟩ := List.mem_map.mp hw
        exact ⟨⟨.nil, nofun⟩, le_rfl⟩
    dsimp only
    split
    · exact .accumulate (by exact hwo.1.of_same rfl rfl) (by exact hwo.2) hi _
    · exact .accumulate (by exact hwo.1.of_same rfl rfl) (by exact hwo.2) hi _

theorem timeline (h : Reach step (fun s l => onTime s l = true) init s) :
    ∀ z ∈ s.history.series, z.2.Ordered :=
  h.invariant (P := fun s => ∀ z ∈ s.history.series, z.2.Ordered) (fun _ hz => nomatch hz)
    fun _ _ _ ha hc hs => step_ordered ha hc hs

/-- Late ticks, and a longer interval. -/
def lateRun : List Label :=
  [.start 7 "a" true, .tick 0 [] 5 true, .tick 8 [] 5 true, .tick 20 [] 9 true]

theorem timeline_late : ∃ s : State, (∀ z ∈ s.history.series, z.2.Ordered) ∧
    s.history.series.map (fun z => z.2.closed.map Prod.fst) = [[5, 17]] := by
  obtain ⟨s, hs, hp⟩ := reach_any (p := fun s : State =>
    s.history.series.map (fun z => z.2.closed.map Prod.fst) == [[5, 17]])
    (show (replay step (fun s l => onTime s l = true) init lateRun).any _ = true by decide +kernel)
  exact ⟨s, timeline hs, beq_iff_eq.mp hp⟩

end SparkDeck.LiveHistory
