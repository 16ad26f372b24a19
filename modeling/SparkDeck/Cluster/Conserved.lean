import SparkDeck.Cluster.Load
import SparkDeck.Lib.Tally
import SparkDeck.Lib.Transition

/-!
# Cluster member load is conserved

Every reservation is freed exactly once, the counter of a member is the number of requests that
hold a reservation on it, and when all requests are through every counter is zero: as long as no
stream is closed before its generator was started (`load_conserved`).

Closing a generator that was never started runs none of its body, and the release of a returned
stream is in that body. `Clean` lists the ways this happens: the relay around a stream is closed
before its first pull, a stream is itself closed before it was started, `PromptGate.run` closes the
stream its task has already returned. It also excludes a `_prompt_observation_dispatch` that raises,
after `waiting` is cleared and before the pass that would release, and a member whose key changes
while a reservation is held on it. `unread_stream_leaks` is the first of these in a run.

Two groups of facts are kept apart. `Books` is about the counters and the passes and does not see
the requests; `Held` says that a held reservation is the one its request is at.
-/

namespace SparkDeck.Cluster

open Transition Function

variable {M K : Type*}

namespace Pass

/-- A stream that is out and whose generator has not been started. -/
def Unstarted (p : Pass M K) : Prop := p.stage = .bare false ∨ p.stage = .prompt false

instance (p : Pass M K) : Decidable p.Unstarted := inferInstanceAs (Decidable (_ ∨ _))

/-- The event ends the pass without its release. -/
def Leaks (p : Pass M K) : Event → Prop
  | .dispatch .raised => True
  | .discard => p.holds
  | _ => False

instance (p : Pass M K) (e : Event) : Decidable (p.Leaks e) := by
  unfold Leaks
  split <;> infer_instance

/-- What the stage of a pass says about its release. -/
def Fits (p : Pass M K) : Prop :=
  match p.stage with
  | .queued | .admitted => p.waiting ∧ p.once = none
  | .probing | .proxying | .slotting => p.once = none
  | .sending | .opened | .bare _ | .prompt _ => p.once.isSome
  | .over => p.once ≠ some false

/-- A stream that was returned is out, or it is over. -/
def Returned (p : Pass M K) : Prop := p.Streams ∨ p.stage = .over

/-- `q` is the pass `p` further on, `freed` if it called `_release_cluster_member` on the way. -/
structure Onward (p : Pass M K) (freed : Bool) (q : Pass M K) : Prop where
  fits : q.Fits
  request : q.request = p.request
  member : q.member = p.member
  key : q.key = p.key
  holds : q.holds = (p.holds && !freed)
  freed : freed → p.holds
  returned : p.Returned → q.Returned

variable {p q : Pass M K} {b same : Bool}

theorem not_holds_of_over (h : p.stage = .over) : p.holds = false := by simp [holds, h]

theorem onward_prime (hf : p.Fits) : p.Onward false p.prime := by
  unfold prime
  split
  case h_1 hs =>
    refine ⟨?_, rfl, rfl, rfl, ?_, by simp, fun _ => .inl ⟨true, .inl rfl⟩⟩
    · simpa [Fits, goto, hs] using hf
    · simp [holds, goto, hs]
  case h_2 => exact ⟨hf, rfl, rfl, rfl, by simp, by simp, id⟩

/-- A started stream, or one whose reservation is gone, is closed with its release. -/
theorem onward_close (hf : p.Fits) (h : p.Unstarted ∨ p.stage = .opened → p.holds = false) :
    p.Onward p.close.1 p.close.2 := by
  have hover : p.stage = .over → p.Onward false p := fun hs =>
    ⟨hf, rfl, rfl, rfl, by simp, by simp, id⟩
  rcases p with ⟨r, m, k, gated, remote, streaming, waiting, once, stage⟩
  rcases once with _ | _ | _ <;> cases stage with
  | bare st | prompt st =>
    cases st <;> constructor <;>
      simp_all [Fits, holds, close, releaseOnce, goto, Unstarted, Returned, Streams]
  | _ => constructor <;> simp_all [Fits, holds, close, goto, Unstarted, Returned, Streams]

/-- `release_once`, on its own. -/
theorem onward_releaseOnce (hf : p.Fits) (ho : p.once.isSome) :
    p.Onward p.releaseOnce.1 p.releaseOnce.2 := by
  rcases p with ⟨r, m, k, gated, remote, streaming, waiting, once, stage⟩
  rcases once with _ | _ | _
  · simp at ho
  · cases stage <;> constructor <;> simp_all [Fits, holds, releaseOnce, Returned, Streams]
  · exact ⟨hf, rfl, rfl, rfl, by simp [releaseOnce], by simp [releaseOnce], id⟩

/-- The `finally` of the unlimited pass ends it with its release. -/
theorem onward_unwind (hf : p.Fits) (hs : p.stage ≠ .over) (hr : ¬p.Streams) :
    p.Onward p.unwind.1 p.unwind.2 := by
  rcases p with ⟨r, m, k, gated, remote, streaming, waiting, once, stage⟩
  rcases once with _ | _ | _ <;> constructor <;>
    simp_all [Fits, holds, unwind, releaseOnce, goto, Returned]

/-- The pass goes on with its reservation. -/
theorem onward_keep (h : q.Fits) (hreq : q.request = p.request) (hmem : q.member = p.member)
    (hkey : q.key = p.key) (hholds : q.holds = p.holds) (hret : p.Returned → q.Returned) :
    p.Onward false q :=
  ⟨h, hreq, hmem, hkey, by simpa using hholds, by simp, hret⟩

/-- **What one event does to a pass.** -/
theorem onward_advance {e : Event} (hf : p.Fits) (h : p.advance same e = some (b, q))
    (hc : ¬p.Leaks e) : p.Onward b q := by
  rcases p with ⟨r, m, k, gated, remote, streaming, waiting, once, stage⟩
  cases e with
  | grant | wrap | produce =>
    simp only [advance, Option.ite_none_right_eq_some, Option.some.injEq, Prod.mk.injEq] at h
    obtain ⟨hs, rfl, rfl⟩ := h
    apply onward_keep <;> simp_all [Fits, holds, goto, Returned, Streams]
  | dispatch d =>
    simp only [advance, ne_eq, ite_not, Option.ite_none_right_eq_some] at h
    obtain ⟨hs, h⟩ := h
    cases d with
    | changed =>
      obtain ⟨rfl, rfl⟩ : true = b ∧ _ = q := by simpa using h
      constructor <;> simp_all [Fits, holds, goto, Returned, Streams]
    | raised => exact absurd trivial hc
    | passed =>
      simp only [Option.ite_none_right_eq_some, Option.some.injEq, Prod.mk.injEq] at h
      obtain ⟨-, rfl, rfl⟩ := h
      apply onward_keep <;> simp_all [Fits, holds, goto, Returned, Streams]
  | ready =>
    simp only [advance, Option.ite_none_right_eq_some, Option.some.injEq, Prod.mk.injEq] at h
    obtain ⟨hs, rfl, rfl⟩ := h
    cases remote <;> apply onward_keep <;> simp_all [Fits, holds, goto, Returned, Streams]
  | track =>
    simp only [advance, Option.ite_none_right_eq_some, Option.some.injEq, Prod.mk.injEq] at h
    obtain ⟨hs, rfl, rfl⟩ := h
    apply onward_keep <;> simp_all [Fits, holds, Returned, Streams]
  | fail =>
    simp only [advance] at h
    split at h
    -- the `waiting` branch of the gated pass
    case h_1 | h_2 =>
      obtain ⟨rfl, rfl⟩ : waiting = b ∧ _ = q := by simpa using h
      constructor <;> simp_all [Fits, holds, goto, Returned, Streams]
    case h_3 hs | h_4 hs | h_5 hs | h_6 hs =>
      obtain ⟨rfl, rfl⟩ : _ = b ∧ _ = q := by simpa [Prod.ext_iff] using h
      exact onward_unwind hf (by simp_all) (by simp_all [Streams])
    case h_7 => cases h
  | reply =>
    simp only [advance, Option.ite_none_left_eq_some] at h
    obtain ⟨-, h⟩ := h
    split at h
    case h_1 hs | h_2 hs =>
      obtain ⟨rfl, rfl⟩ : _ = b ∧ _ = q := by simpa [Prod.ext_iff] using h
      exact onward_unwind hf (by simp_all) (by simp_all [Streams])
    case h_3 => cases h
  | accept =>
    simp only [advance, Option.ite_none_right_eq_some] at h
    obtain ⟨-, h⟩ := h
    split at h
    case h_1 hs | h_2 hs =>
      obtain ⟨rfl, rfl⟩ : false = b ∧ _ = q := by simpa using h
      cases gated <;> apply onward_keep <;> simp_all [Fits, holds, goto, Returned, Streams]
    case h_3 => cases h
  | discard =>
    simp only [advance, Option.ite_none_right_eq_some] at h
    obtain ⟨hs, h⟩ := h
    obtain ⟨rfl, rfl⟩ : _ = b ∧ _ = q := by simpa [Prod.ext_iff] using h
    exact onward_close hf fun _ => by simpa [Leaks] using hc
  | finish =>
    simp only [advance] at h
    split at h
    case h_1 hs | h_2 hs =>
      obtain ⟨rfl, rfl⟩ : _ = b ∧ _ = q := by simpa [Prod.ext_iff] using h
      exact onward_close hf (by simp_all [Unstarted])
    case h_3 => cases h
  | reap =>
    simp only [advance, Option.ite_none_right_eq_some] at h
    obtain ⟨ho, h⟩ := h
    obtain ⟨rfl, rfl⟩ : _ = b ∧ _ = q := by simpa [Prod.ext_iff] using h
    exact onward_releaseOnce hf ho

end Pass

theorem current_of_out {c : Control} {i : ℕ} (h : c = .returned i ∨ c = .reading i) :
    c.current = some i := by
  rcases h with rfl | rfl <;> rfl

namespace Load

/-- A held reservation is the one its request is at. -/
structure Held (g : Load M K) : Prop where
  fresh : ∀ r, g.arrivals ≤ r → (g.requests r).control = .done
  known : ∀ i < g.next, (g.passes i).request < g.arrivals
  attached : ∀ i < g.next, (g.passes i).holds →
    (g.requests (g.passes i).request).control.current = some i
  at_lt : ∀ r i, (g.requests r).control.current = some i → i < g.next
  out : ∀ r i, (g.requests r).control = .returned i ∨ (g.requests r).control = .reading i →
    (g.passes i).Returned

variable {g : Load M K} {i r : ℕ} {b : Bool} {p : Pass M K} {c : Control}

theorem held_init [Inhabited M] (key : M → K) : (init key).Held :=
  ⟨fun _ _ => rfl, fun _ h => absurd h (Nat.not_lt_zero _),
    fun _ h => absurd h (Nat.not_lt_zero _), fun r i h => by simp [init, Control.current] at h,
    fun r i h => by simp [init] at h⟩

/-! ## A request goes on -/

theorem go_control (r' : ℕ) :
    ((g.go r c).requests r').control = if r' = r then c else (g.requests r').control := by
  rcases eq_or_ne r' r with rfl | hr
  · simp [Load.go]
  · simp [Load.go, hr]

/-- A request may go where the reservation it still holds goes along. -/
theorem Held.go (h : g.Held) (hr : r < g.arrivals)
    (hcur : ∀ i < g.next, (g.passes i).request = r → (g.passes i).holds → c.current = some i)
    (hlt : ∀ i, c.current = some i → i < g.next)
    (hout : ∀ i, c = .returned i ∨ c = .reading i → (g.passes i).Returned) :
    (g.go r c).Held := by
  refine ⟨fun r' hr' => ?_, h.known, fun i hi hh => ?_, fun r' i hr => ?_, fun r' i hr => ?_⟩
  · rw [go_control, if_neg (hr.trans_le hr').ne']
    exact h.fresh r' hr'
  · rw [go_control]
    split
    · exact hcur i hi ‹_› hh
    · exact h.attached i hi hh
  · rw [go_control] at hr
    split at hr
    · exact hlt i hr
    · exact h.at_lt r' i hr
  · rw [go_control] at hr
    split at hr
    · exact hout i hr
    · exact h.out r' i hr

theorem Held.lt (h : g.Held) (hc : (g.requests r).control ≠ .done) : r < g.arrivals := by
  by_contra hr
  exact hc (h.fresh r (by omega))

/-- Which reservation a request can still have. -/
theorem Held.current (h : g.Held) (hi : i < g.next) (hr : (g.passes i).request = r)
    (hh : (g.passes i).holds) : (g.requests r).control.current = some i :=
  hr ▸ h.attached i hi hh

/-- A request at a pass that no longer holds has nothing left. -/
theorem Held.nothing (h : g.Held) (hc : (g.requests r).control.current = some i)
    (hh : (g.passes i).holds = false) {j : ℕ} (hj : j < g.next) (hr : (g.passes j).request = r) :
    (g.passes j).holds = false := by
  by_contra hheld
  have hcur := h.current hj hr (by simpa using hheld)
  obtain rfl : i = j := Option.some.inj (hc.symm.trans hcur)
  exact hheld hh

theorem Held.arrive (h : g.Held) (streaming direct : Bool) :
    { g with
      requests := update g.requests g.arrivals ⟨streaming, direct, .selecting false⟩
      arrivals := g.arrivals + 1 : Load M K }.Held := by
  refine ⟨fun r hr => ?_, fun j hj => (h.known j hj).trans (Nat.lt_succ_self _),
    fun j hj hh => ?_, fun r j hr => ?_, fun r j hr => ?_⟩
  · have hr' : g.arrivals < r := hr
    simpa [hr'.ne'] using h.fresh r hr'.le
  · have hne := (h.known j hj).ne
    simpa [hne] using h.attached j hj hh
  · rcases eq_or_ne r g.arrivals with rfl | hne
    · simp [Control.current] at hr
    · simp only [ne_eq, hne, not_false_eq_true, update_of_ne] at hr
      exact h.at_lt r j hr
  · rcases eq_or_ne r g.arrivals with rfl | hne
    · simp at hr
    · simp only [ne_eq, hne, not_false_eq_true, update_of_ne] at hr
      exact h.out r j hr

variable [DecidableEq K]

/-- Pass `i` has a reservation on the members of key `k`. -/
def On (g : Load M K) (k : K) (i : ℕ) : Prop :=
  (g.passes i).holds ∧ g.key (g.passes i).member = k

instance (g : Load M K) (k : K) : DecidablePred (g.On k) := fun _ =>
  inferInstanceAs (Decidable (_ ∧ _))

/-- The counters and the passes agree. -/
structure Books (g : Load M K) : Prop where
  fits : ∀ i < g.next, (g.passes i).Fits
  keys : ∀ i < g.next, (g.passes i).holds → g.key (g.passes i).member = (g.passes i).key
  frees : ∀ i < g.next, g.frees i = if (g.passes i).holds then 0 else 1
  loads : ∀ k, g.loads k = Nat.count (g.On k) g.next

theorem books_init [Inhabited M] (key : M → K) : (init key).Books :=
  ⟨fun _ h => absurd h (Nat.not_lt_zero _), fun _ h => absurd h (Nat.not_lt_zero _),
    fun _ h => absurd h (Nat.not_lt_zero _), fun _ => rfl⟩

theorem Books.go (h : g.Books) : (g.go r c).Books := { h with }

/-! ## A pass goes on -/

@[simp] theorem put_next : (g.put i b p).next = g.next := by cases b <;> rfl

@[simp] theorem put_key : (g.put i b p).key = g.key := by cases b <;> rfl

@[simp] theorem put_requests : (g.put i b p).requests = g.requests := by cases b <;> rfl

@[simp] theorem put_arrivals : (g.put i b p).arrivals = g.arrivals := by cases b <;> rfl

@[simp] theorem put_passes : (g.put i b p).passes = update g.passes i p := by
  cases b <;> rfl

/-- A pass that has its reservation releases on the key that reservation is counted under. -/
theorem Books.releaseKey (h : g.Books) (hi : i < g.next) (hh : (g.passes i).holds) :
    g.releaseKey i = g.key (g.passes i).member := by
  simp only [Load.releaseKey]
  split
  · exact (h.keys i hi hh).symm
  · rfl

theorem Books.put (h : g.Books) (hi : i < g.next) (ho : (g.passes i).Onward b p) :
    (g.put i b p).Books := by
  have hmem : ∀ j, (update g.passes i p j).member = (g.passes j).member := fun j => by
    rcases eq_or_ne j i with rfl | hj
    · simp [ho.member]
    · simp [hj]
  refine ⟨fun j hj => ?_, fun j hj hh => ?_, fun j hj => ?_, fun k => ?_⟩
  · simp only [put_next] at hj
    rcases eq_or_ne j i with rfl | hne
    · simpa using ho.fits
    · simpa [hne] using h.fits j hj
  · simp only [put_next, put_passes, put_key, hmem] at hj hh ⊢
    rcases eq_or_ne j i with rfl | hne
    · simp only [update_self, ho.holds, Bool.and_eq_true] at hh
      simpa [ho.key] using h.keys j hj hh.1
    · simp only [hne, ne_eq, not_false_eq_true, update_of_ne] at hh ⊢
      exact h.keys j hj hh
  · simp only [put_next] at hj
    have hfree := h.frees j hj
    rcases eq_or_ne j i with rfl | hne
    · cases b with
      | false => simpa [Load.put, ho.holds] using hfree
      | true =>
        rw [if_pos (ho.freed rfl)] at hfree
        simp [Load.put, release, ho.holds, hfree]
    · cases b <;> simpa [Load.put, release, hne] using hfree
  · have hoff : ∀ j < g.next, j ≠ i → (g.On k j ↔ (g.put i b p).On k j) := fun j _ hne => by
      simp [On, hne]
    cases b with
    | false =>
      have hsame : ∀ j < g.next, g.On k j ↔ (g.put i false p).On k j := fun j hj => by
        rcases eq_or_ne j i with rfl | hne
        · simp [On, ho.holds, ho.member]
        · exact hoff j hj hne
      exact (h.loads k).trans (Tally.count_congr hsame)
    | true =>
      have hheld := ho.freed rfl
      have hgone : ¬(g.put i true p).On k i := by simp [On, ho.holds]
      have hl : (g.put i true p).loads k = if g.key (g.passes i).member = k then g.loads k - 1
          else g.loads k := by
        simp only [Load.put, release, if_true, h.releaseKey hi hheld, update_apply]
        rcases eq_or_ne k (g.key (g.passes i).member) with rfl | hk
        · simp
        · rw [if_neg hk, if_neg hk.symm]
      rw [hl, put_next, h.loads k]
      by_cases hk : g.key (g.passes i).member = k
      · rw [if_pos hk, Tally.count_drop hi ⟨hheld, hk⟩ hgone hoff, Nat.add_sub_cancel]
      · rw [if_neg hk]
        refine Tally.count_congr fun j hj => ?_
        rcases eq_or_ne j i with rfl | hne
        · exact iff_of_false (fun hon => hk hon.2) hgone
        · exact hoff j hj hne

theorem Held.put (h : g.Held) (ho : (g.passes i).Onward b p) : (g.put i b p).Held := by
  refine ⟨fun r hr => ?_, fun j hj => ?_, fun j hj hh => ?_, fun r j hr => ?_, fun r j hr => ?_⟩
  · rw [put_arrivals] at hr
    rw [put_requests]
    exact h.fresh r hr
  · simp only [put_next, put_passes, put_arrivals] at hj ⊢
    rcases eq_or_ne j i with rfl | hne
    · simpa [ho.request] using h.known j hj
    · simpa [hne] using h.known j hj
  · simp only [put_next, put_passes, put_requests] at hj hh ⊢
    rcases eq_or_ne j i with rfl | hne
    · simp only [update_self, ho.holds, Bool.and_eq_true] at hh
      simpa [ho.request] using h.attached j hj hh.1
    · simp only [hne, ne_eq, not_false_eq_true, update_of_ne] at hh ⊢
      exact h.attached j hj hh
  · rw [put_requests] at hr
    rw [put_next]
    exact h.at_lt r j hr
  · simp only [put_passes, put_requests] at hr ⊢
    have hret := h.out r j hr
    rcases eq_or_ne j i with rfl | hne
    · simpa using ho.returned hret
    · simpa [hne] using hret

/-! ## A pass begins -/

theorem Books.begin (h : g.Books) (r : ℕ) (m : M) (gated remote : Bool) :
    (g.begin r m gated remote).Books := by
  have hon : ∀ k, ∀ j < g.next, (g.begin r m gated remote).On k j ↔ g.On k j := fun k j hj => by
    simp [On, Load.begin, acquire, update_of_ne hj.ne]
  have hholds : ((g.begin r m gated remote).passes g.next).holds := by
    cases gated <;> simp [Load.begin, Pass.holds]
  have hlt : ∀ j, j < (g.begin r m gated remote).next → j ≠ g.next → j < g.next := fun j hj hne =>
    lt_of_le_of_ne (Nat.lt_succ_iff.mp hj) hne
  refine ⟨fun j hj => ?_, fun j hj hh => ?_, fun j hj => ?_, fun k => ?_⟩
  · rcases eq_or_ne j g.next with rfl | hne
    · cases gated <;> simp [Load.begin, Pass.Fits]
    · simpa [Load.begin, hne] using h.fits j (hlt j hj hne)
  · rcases eq_or_ne j g.next with rfl | hne
    · simp [Load.begin, acquire]
    · simp only [Load.begin, acquire, ne_eq, hne, not_false_eq_true, update_of_ne] at hh ⊢
      exact h.keys j (hlt j hj hne) hh
  · rcases eq_or_ne j g.next with rfl | hne
    · rw [if_pos hholds]
      simp [Load.begin]
    · simpa [Load.begin, hne] using h.frees j (hlt j hj hne)
  · have hlast : (g.begin r m gated remote).On k g.next ↔ g.key m = k := by
      rw [On, hholds]
      simp [Load.begin, acquire]
    have hl : (g.begin r m gated remote).loads k = g.loads k + if g.key m = k then 1 else 0 := by
      simp only [Load.begin, acquire, update_apply]
      rcases eq_or_ne k (g.key m) with rfl | hk
      · simp
      · simp [hk, hk.symm]
    have hc : Nat.count ((g.begin r m gated remote).On k) (g.next + 1) =
        Nat.count (g.On k) g.next + if g.key m = k then 1 else 0 := by
      rw [Nat.count_succ, Tally.count_congr (hon k)]
      simp only [hlast]
    rw [hl, h.loads k]
    exact hc.symm

theorem Held.select (h : g.Held) {relay : Bool} (hc : (g.requests r).control = .selecting relay)
    (m : M) (gated remote : Bool) :
    ((g.begin r m gated remote).go r (.passing relay g.next)).Held := by
  have hr : r < g.arrivals := h.lt (by simp [hc])
  have hlt : ∀ j, j < (g.begin r m gated remote).next → j ≠ g.next → j < g.next := fun j hj hne =>
    lt_of_le_of_ne (Nat.lt_succ_iff.mp hj) hne
  refine ⟨fun r' hr' => ?_, fun j hj => ?_, fun j hj hh => ?_, fun r' j hr' => ?_,
    fun r' j hr' => ?_⟩
  · rw [go_control, if_neg (hr.trans_le hr').ne']
    exact h.fresh r' hr'
  · rcases eq_or_ne j g.next with rfl | hne
    · simpa [Load.go, Load.begin, acquire] using hr
    · simpa [Load.go, Load.begin, acquire, hne] using h.known j (hlt j hj hne)
  · rw [go_control]
    rcases eq_or_ne j g.next with rfl | hne
    · simp [Load.go, Load.begin, Control.current]
    · have hsame : ((g.begin r m gated remote).go r (.passing relay g.next)).passes j =
          g.passes j := by simp [Load.go, Load.begin, hne]
      rw [hsame] at hh ⊢
      have hcur := h.attached j (hlt j hj hne) hh
      -- the request of an earlier pass that still holds is not between two passes
      have hreq : (g.passes j).request ≠ r := by
        rintro rfl
        simp [hc, Control.current] at hcur
      rwa [if_neg hreq]
  · rw [go_control] at hr'
    split at hr'
    · obtain rfl : g.next = j := by simpa [Control.current] using hr'
      exact Nat.lt_succ_self _
    · exact Nat.lt_succ_of_lt (h.at_lt r' j hr')
  · rw [go_control] at hr'
    split at hr'
    · simp at hr'
    · have hj := h.at_lt r' j (current_of_out hr')
      simpa [Load.go, Load.begin, hj.ne] using h.out r' j hr'

/-! ## A key changes -/

variable [DecidableEq M]

theorem Books.rekey (h : g.Books) (m : M) (k : K)
    (hc : k = g.key m ∨ ∀ i < g.next, (g.passes i).member = m → (g.passes i).holds = false) :
    { g with key := update g.key m k }.Books := by
  rcases hc with rfl | hc
  · rw [update_eq_self]
    exact h
  · have hkey : ∀ i < g.next, (g.passes i).holds →
        update g.key m k (g.passes i).member = g.key (g.passes i).member :=
      fun i hi hh => update_of_ne (fun hm => by simp [hc i hi hm] at hh) _ _
    refine ⟨h.fits, fun i hi hh => (hkey i hi hh).trans (h.keys i hi hh), h.frees, fun k' => ?_⟩
    refine (h.loads k').trans (Tally.count_congr fun i hi => and_congr_right fun hh => ?_)
    exact (Eq.congr_left (hkey i hi hh)).symm

end Load

/-- No stream is closed before its generator was started, and nothing else takes a reservation
past its release. -/
def Clean (g : Load M K) : Label M K → Prop
  | .pass i e => ¬(g.passes i).Leaks e
  | .close r _ =>
    match (g.requests r).control with
    | .returned i =>
      (g.requests r).direct = false ∨ (g.passes i).Unstarted → (g.passes i).holds = false
    | .reading i => (g.passes i).Unstarted → (g.passes i).holds = false
    | _ => True
  | .rekey m k => k = g.key m ∨ ∀ i < g.next, (g.passes i).member = m → (g.passes i).holds = false
  | _ => True

instance [DecidableEq M] [DecidableEq K] (g : Load M K) (e : Label M K) : Decidable (Clean g e) := by
  unfold Clean
  split
  case h_2 => split <;> infer_instance
  all_goals infer_instance

variable {g g' : Load M K} {r i : ℕ}

open Load

/-- A request whose pass holds nothing ends, or goes on without it. -/
theorem held_leave (h : g.Held) {c : Control}
    (hcur : (g.requests r).control.current = some i) (hh : (g.passes i).holds = false)
    (hc : c.current = none) : (g.go r c).Held := by
  have hr : r < g.arrivals := h.lt fun hd => by simp [hd, Control.current] at hcur
  refine h.go hr (fun j hj hreq hheld => ?_) (fun j hj => ?_) fun j hj => ?_
  · rw [h.nothing hcur hh hj hreq] at hheld
    cases hheld
  · simp [hc] at hj
  · simp [current_of_out hj] at hc

/-- A request keeps to its pass, whose stream is out. -/
theorem held_keep (h : g.Held) {c : Control} (hcur : (g.requests r).control.current = some i)
    (hret : (g.passes i).Returned) (hc : c = .returned i ∨ c = .reading i) : (g.go r c).Held := by
  have hr : r < g.arrivals := h.lt fun hd => by simp [hd, Control.current] at hcur
  have hci : c.current = some i := current_of_out hc
  have honly : ∀ j, c.current = some j → i = j := fun j hj => Option.some.inj (hci.symm.trans hj)
  refine h.go hr (fun j hj hreq hheld => ?_) (fun j hj => ?_) fun j hj => ?_
  · rw [hci, ← hcur]
    exact h.current hj hreq hheld
  · exact honly j hj ▸ h.at_lt r i hcur
  · exact honly j (current_of_out hj) ▸ hret

variable [DecidableEq K]

theorem held_close (hb : g.Books) (h : g.Held) {c : Control}
    (hcur : (g.requests r).control.current = some i) (hret : (g.passes i).Returned)
    (hclean : (g.passes i).Unstarted → (g.passes i).holds = false) (hc : c.current = none) :
    ((g.put i (g.passes i).close.1 (g.passes i).close.2).go r c).Books ∧
      ((g.put i (g.passes i).close.1 (g.passes i).close.2).go r c).Held := by
  have hi := h.at_lt r i hcur
  have hopen : (g.passes i).stage ≠ .opened := by
    rcases hret with ⟨b, hs | hs⟩ | hs <;> simp [hs]
  have ho := Pass.onward_close (hb.fits i hi) fun hu => hclean (hu.resolve_right hopen)
  refine ⟨(hb.put hi ho).go, held_leave (i := i) (h.put ho) (by simpa using hcur) ?_ hc⟩
  -- a stream that is closed is over
  have hover : (g.passes i).close.2.stage = .over := by
    rcases hret with ⟨_ | _, hs | hs⟩ | hs <;> simp [Pass.close, Pass.goto, hs]
  simpa using Pass.not_holds_of_over hover

/-- A request begins to read the stream of its pass. -/
theorem kept_prime (hb : g.Books) (h : g.Held) (hcur : (g.requests r).control.current = some i)
    (hret : (g.passes i).Returned) :
    ((g.put i false (g.passes i).prime).go r (.reading i)).Books ∧
      ((g.put i false (g.passes i).prime).go r (.reading i)).Held := by
  have hi := h.at_lt r i hcur
  have ho := Pass.onward_prime (hb.fits i hi)
  refine ⟨(hb.put hi ho).go, held_keep (i := i) (h.put ho) (by simpa using hcur) ?_ (.inr rfl)⟩
  simpa using ho.returned hret

/-- No two requests share a reservation, and no request has two. -/
theorem loads_eq_holders (hb : g.Books) (h : g.Held) (k : K) : g.loads k = g.holders k := by
  rw [hb.loads k, holders]
  refine Tally.count_eq_card_owners (fun i hi hon => h.known i hi) fun i hi j hj hon hon' hreq => ?_
  have hcur := h.attached i hi hon.1
  rw [hreq, h.attached j hj hon'.1] at hcur
  exact (Option.some.inj hcur).symm

variable [DecidableEq M]

/-- **What one step keeps.** -/
theorem step_kept {e : Label M K} (hb : g.Books) (h : g.Held) (hc : Clean g e)
    (hs : step g e = some g') : g'.Books ∧ g'.Held := by
  cases e with
  | arrive streaming direct =>
    cases hs
    exact ⟨{ hb with }, h.arrive streaming direct⟩
  | select r m gated remote =>
    simp only [step] at hs
    split at hs
    case h_1 relay hctl =>
      cases hs
      exact ⟨(hb.begin r m gated remote).go, h.select hctl m gated remote⟩
    case h_2 => cases hs
  | pass i e =>
    simp only [step, Option.ite_none_right_eq_some] at hs
    obtain ⟨hi, hs⟩ := hs
    split at hs
    case h_1 freed p hadv =>
      cases hs
      have ho := Pass.onward_advance (hb.fits i hi) hadv hc
      exact ⟨hb.put hi ho, h.put ho⟩
    case h_2 => cases hs
  | settle r again =>
    simp only [step] at hs
    split at hs
    case h_1 relay i hctl =>
      simp only [Option.ite_none_right_eq_some, Option.some.injEq] at hs
      obtain ⟨hover, rfl⟩ := hs
      refine ⟨hb.go, held_leave (i := i) h (by simp [hctl, Control.current])
        (Pass.not_holds_of_over hover) ?_⟩
      cases again <;> rfl
    case h_2 i hctl =>
      simp only [Option.ite_none_right_eq_some, Option.some.injEq] at hs
      obtain ⟨⟨hover, -⟩, rfl⟩ := hs
      refine ⟨hb.go, held_leave (i := i) h (by simp [hctl, Control.current])
        (Pass.not_holds_of_over hover) ?_⟩
      cases again <;> rfl
    case h_3 => cases hs
  | stop r =>
    simp only [step] at hs
    split at hs
    case h_1 relay hctl =>
      cases hs
      refine ⟨hb.go, h.go (h.lt (by simp [hctl])) (fun j hj hreq hheld => ?_)
        (fun j hj => by simp [Control.current] at hj) fun j hj => by simp at hj⟩
      have hcur := h.current hj hreq hheld
      simp [hctl, Control.current] at hcur
    case h_2 => cases hs
  | hand r =>
    simp only [step] at hs
    split at hs
    case h_1 i hctl =>
      simp only [Option.ite_none_right_eq_some, Option.some.injEq] at hs
      obtain ⟨hout, rfl⟩ := hs
      have hcur : (g.requests r).control.current = some i := by simp [hctl, Control.current]
      exact ⟨hb.go, held_keep h hcur (.inl hout) (.inl rfl)⟩
    case h_2 i hctl =>
      simp only [Option.ite_none_right_eq_some, Option.some.injEq] at hs
      obtain ⟨hout, rfl⟩ := hs
      exact kept_prime hb h (by simp [hctl, Control.current]) (.inl hout)
    case h_3 => cases hs
  | pull r =>
    simp only [step] at hs
    split at hs
    case h_1 i hctl =>
      cases hs
      exact kept_prime hb h (by simp [hctl, Control.current]) (h.out r i (.inl hctl))
    case h_2 => cases hs
  | close r again =>
    simp only [step] at hs
    split at hs
    case h_1 i hctl =>
      simp only [Clean, hctl] at hc
      have hret := h.out r i (.inl hctl)
      have hcur : (g.requests r).control.current = some i := by simp [hctl, Control.current]
      simp only [Option.ite_none_left_eq_some] at hs
      obtain ⟨-, hs⟩ := hs
      split at hs
      case isTrue =>
        cases hs
        exact held_close hb h hcur hret (fun hu => hc (.inr hu)) rfl
      case isFalse hdirect =>
        cases hs
        exact ⟨hb.go, held_leave h hcur (hc (.inl (by simpa using hdirect))) rfl⟩
    case h_2 i hctl =>
      simp only [Clean, hctl] at hc
      simp only [Option.ite_none_right_eq_some, Option.some.injEq] at hs
      obtain ⟨-, rfl⟩ := hs
      refine held_close hb h (by simp [hctl, Control.current]) (h.out r i (.inr hctl)) hc ?_
      cases again <;> rfl
    case h_3 => cases hs
  | rekey m k =>
    cases hs
    exact ⟨hb.rekey m k hc, h.fresh, h.known, h.attached, h.at_lt, h.out⟩

namespace Load

/-- The load of every member is accounted for. -/
structure Conserved (g : Load M K) : Prop where
  loads : ∀ k, g.loads k = g.holders k
  /-- A reservation is freed exactly once, when its pass stops holding it. -/
  freed : ∀ i < g.next, g.frees i = if (g.passes i).holds then 0 else 1
  /-- A request that is through has freed all its reservations. -/
  through : ∀ i < g.next, (g.requests (g.passes i).request).control = .done → g.frees i = 1
  quiet : (∀ r < g.arrivals, (g.requests r).control = .done) → ∀ k, g.loads k = 0

end Load

theorem load_conserved [Inhabited M] {key : M → K} (h : Reach step Clean (init key) g) :
    g.Conserved := by
  have hkept : g.Books ∧ g.Held :=
    Reach.invariant (P := fun g : Load M K => g.Books ∧ g.Held) h
      ⟨books_init key, held_init key⟩ fun _ _ _ hg hc hs => step_kept hg.1 hg.2 hc hs
  obtain ⟨hb, hheld⟩ := hkept
  have hdone : ∀ i < g.next, (g.requests (g.passes i).request).control = .done →
      (g.passes i).holds = false := fun i hi hctl => by
    by_contra hh
    have hcur := hheld.attached i hi (by simpa using hh)
    simp [hctl, Control.current] at hcur
  refine ⟨loads_eq_holders hb hheld, hb.frees, fun i hi hctl => ?_, fun hall k => ?_⟩
  · rw [hb.frees i hi, hdone i hi hctl]
    rfl
  · rw [hb.loads k]
    refine Nat.count_of_forall_not fun i hi hon => ?_
    have hh := hdone i hi (hall _ (hheld.known i hi))
    exact absurd hon.1 (by simp [hh])

/-- Two replicas. Request 0 waits at the gate of replica 0 and is dispatched; request 1 streams from
replica 1 without a gate. The stream of request 0 fails before its first event and it fails over to
replica 1, whose stream its consumer closes; request 1 runs to its end. -/
def failoverRun : List (Label ℕ ℕ) :=
  [.arrive true false, .select 0 0 true true, .arrive true false, .select 1 1 false false,
    .pass 0 .grant, .pass 0 (.dispatch .passed), .pass 1 .ready, .pass 0 .ready, .pass 1 .accept,
    .hand 1, .pass 0 .track, .pass 0 .accept, .pass 0 .wrap, .pass 0 .produce, .hand 0, .pull 0,
    .pull 1, .close 0 true, .select 0 1 true true, .pass 2 .grant, .pass 2 (.dispatch .passed),
    .pass 2 .ready, .pass 2 .track, .pass 2 .accept, .pass 2 .wrap, .pass 2 .produce, .hand 0,
    .pass 1 .finish, .settle 1 false, .close 0 false]

theorem load_conserved_failover :
    ∃ g : Load ℕ ℕ, Reach step Clean (init id) g ∧ g.next = 3 ∧ g.arrivals = 2 ∧
      (∀ r < g.arrivals, (g.requests r).control = .done) ∧
      (∀ i < g.next, g.frees i = 1) ∧ ∀ k, g.loads k = 0 := by
  have hrun : (replay step Clean (init id : Load ℕ ℕ) failoverRun).any (fun g => decide
      (g.next = 3 ∧ g.arrivals = 2 ∧ (∀ r < g.arrivals, (g.requests r).control = .done) ∧
        ∀ i < g.next, (g.requests (g.passes i).request).control = .done)) = true := by decide +kernel
  obtain ⟨g, hr, hg⟩ := reach_any hrun
  obtain ⟨hn, ha, hall, hdone⟩ := of_decide_eq_true hg
  have hcons := load_conserved hr
  exact ⟨g, hr, hn, ha, hall, fun i hi => hcons.through i hi (hdone i hi), hcons.quiet hall⟩

/-- One streaming request, and its consumer closes the returned stream before it pulls. -/
def unreadRun : List (Label ℕ ℕ) :=
  [.arrive true false, .select 0 0 false true, .pass 0 .ready, .pass 0 .track, .pass 0 .accept,
    .hand 0, .close 0 false]

/-- Its request is through and nothing is left to run, and the counter stays up. -/
theorem unread_stream_leaks :
    ∃ g : Load ℕ ℕ, Reach step Free (init id) g ∧
      (∀ r < g.arrivals, (g.requests r).control = .done) ∧ g.frees 0 = 0 ∧ g.loads 0 = 1 ∧
      ¬g.Conserved := by
  have hrun : (replay step Free (init id : Load ℕ ℕ) unreadRun).any (fun g => decide
      ((∀ r < g.arrivals, (g.requests r).control = .done) ∧ g.frees 0 = 0 ∧ g.loads 0 = 1)) =
        true := by decide +kernel
  obtain ⟨g, hr, hg⟩ := reach_any hrun
  obtain ⟨hall, hfrees, hload⟩ := of_decide_eq_true hg
  refine ⟨g, hr, hall, hfrees, hload, fun hc => ?_⟩
  have hzero := hc.quiet hall 0
  omega

end SparkDeck.Cluster
