import SparkDeck.PromptGate.Stream

/-!
# `PromptGate.run` and `_PromptStream`: what holds of every run

Three invariants over the runs of `SparkDeck.PromptGate.Stream`, one for each thing the stream is
answerable for: `LeaseInv` (the lease is released once), `CloseInv` (not before the upstream is
closed) and `PipeInv` (the chunks between the upstream and the consumer are the ones yielded and not
yet returned, in order). `LeaseInv` is kept by every step, the other two by the `Clean` ones.

* `prompt_stream`: in every run whose steps are `Clean` the lease is released once, not before the
  upstream's close has completed unless output was detected, and the consumer gets the upstream's
  chunks in order, all of them when it is neither cancelled nor closed.
* `close_interrupted`: a first `aclose()` that lands while the producer already closes the upstream
  interrupts the close, and the lease is released.
* `unstarted_released`, `discard_interrupted`, `resumed_gap`: what goes wrong on the other steps
  that are not `Clean`.
-/

namespace SparkDeck.PromptGate.Stream

open Transition

variable {D Chunk : Type*}
variable {feed : D → Chunk → D × Bool} {s : World D Chunk} {e : Label Chunk}

theorem enabled_ready [DecidableEq Chunk] (he : enabled s e) : ready s e := by
  simp only [enabled, Bool.and_eq_true] at he
  exact he.2

theorem enabled_stream [DecidableEq Chunk] (he : enabled s e) (hs : e.ofStream) :
    s.run = .handedOff := by
  simp only [enabled, hs, Bool.not_true, Bool.false_or, Bool.and_eq_true, decide_eq_true_eq] at he
  exact he.1

variable {t : World D Chunk}

theorem step_iff [DecidableEq Chunk] :
    step feed s e = some t ↔ enabled s e ∧ effect feed s e = t := by
  unfold step
  split
  · next h => simp [h]
  · next h => simp [h]

/-! ## The lease is released once -/

@[simp] theorem release_released (l : Lease) : l.release.released := by
  unfold Lease.release
  split
  · assumption
  · rfl

theorem release_freed {l : Lease} (h : l.freed = if l.released then 1 else 0) :
    l.release.freed = 1 := by
  unfold Lease.release
  split
  · next hr => rw [h, if_pos hr]
  · next hr => rw [h, if_neg hr]

structure LeaseInv (s : World D Chunk) : Prop where
  freed : s.lease.freed = if s.lease.released then 1 else 0
  done : s.run = .done → s.lease.released
  finished : s.producer.isDone = true → s.callback = false → s.lease.released = true

/-- A move that releases the lease leaves nothing to check. -/
theorem LeaseInv.of_release (h : LeaseInv s) (ht : t.lease = s.lease.release) :
    LeaseInv t where
  freed := by rw [ht, release_freed h.freed, release_released, if_pos rfl]
  done _ := by rw [ht, release_released]
  finished _ _ := by rw [ht, release_released]

theorem LeaseInv.cancelOnce (h : LeaseInv s) : LeaseInv s.cancelOnce := by
  unfold World.cancelOnce
  split
  · exact { h with }
  · exact h

theorem LeaseInv.afterJoin (h : LeaseInv s) (k : Nat) : LeaseInv (s.afterJoin k) := by
  unfold World.afterJoin
  split
  · exact h.of_release rfl
  · exact { h with }

theorem LeaseInv.aclose (h : LeaseInv s) : LeaseInv s.aclose := by
  have hc : LeaseInv { s with closed := true, nextCloser := s.nextCloser + 1 } := { h with }
  unfold World.aclose
  simp only
  split
  · exact hc.cancelOnce.afterJoin _
  · exact { hc.cancelOnce with }

theorem LeaseInv.raiseAfterClose (h : LeaseInv s) : LeaseInv s.raiseAfterClose :=
  { h.aclose with }

theorem LeaseInv.endPull (h : LeaseInv s) (o : Outcome) : LeaseInv (s.endPull o) := by
  unfold World.endPull
  split
  · exact h.raiseAfterClose
  · exact { h with }

theorem LeaseInv.pull (h : LeaseInv s) : LeaseInv s.pull := by
  unfold World.pull
  split
  · exact h.raiseAfterClose
  · split
    · exact { h with }
    · split
      · exact h.endPull _
      · exact { h with }

theorem LeaseInv.wake (h : LeaseInv s) : LeaseInv s.wake := by
  unfold World.wake
  split
  · exact h.raiseAfterClose
  · split
    · exact { h with }
    · split
      · split
        · exact { h with }
        · exact h.endPull _
      · exact h.endPull _
      · exact h

theorem LeaseInv.unwindRun (h : LeaseInv s) : LeaseInv s.unwindRun := by
  unfold World.unwindRun World.afterFactory
  split
  · split
    · exact { h with done := nofun }
    · exact h.of_release rfl
  · exact { h with done := nofun }

theorem LeaseInv.afterFactory (h : LeaseInv s) : LeaseInv s.afterFactory := by
  unfold World.afterFactory
  split
  · exact { h with done := nofun }
  · exact h.of_release rfl

theorem LeaseInv.observe (h : LeaseInv s) (c : Chunk) : LeaseInv (s.observe feed c) := by
  unfold World.observe
  split
  · exact h
  · simp only
    split
    · exact h.of_release rfl
    · exact { h with }

/-- A producer that is not done has nothing to answer for. -/
theorem LeaseInv.of_live (h : LeaseInv s) (hl : t.lease = s.lease) (hr : t.run = s.run)
    (ht : t.producer.isDone = false) : LeaseInv t where
  freed := by rw [hl]; exact h.freed
  done ho := by rw [hl]; exact h.done (hr ▸ ho)
  finished hd := by rw [ht] at hd; cases hd

theorem LeaseInv.put (h : LeaseInv s) (c : Chunk) : LeaseInv (s.put c) := by
  unfold World.put
  split
  · exact h.of_live rfl rfl rfl
  · exact h.of_live rfl rfl rfl

theorem LeaseInv.effect (h : LeaseInv s) (e : Label Chunk) : LeaseInv (effect feed s e) := by
  cases e with
  | proceed =>
    simp only [Stream.effect, World.proceed]
    split
    · split
      · exact { h with done := nofun }
      · exact h.unwindRun
    · exact h.afterFactory
    · exact h
  | throwRun =>
    simp only [Stream.effect, World.throwRun]
    split
    · exact h.unwindRun
    · exact h.of_release rfl
    · exact h
  | start =>
    simp only [Stream.effect]
    split
    · exact { h with finished := fun _ hc => absurd hc (by simp [World.finish]) }
    · exact h.of_live rfl rfl rfl
  | chunk c =>
    have hy : LeaseInv { s with yielded := s.yielded ++ [c] } := { h with }
    exact (hy.observe c).put c
  | interrupt =>
    simp only [Stream.effect]
    split
    · exact { h with }
    · exact { h with }
  | put =>
    simp only [Stream.effect]
    split
    · split
      · exact h.of_live rfl rfl rfl
      · exact h.of_live rfl rfl rfl
    · exact h
  | closeDone error | throwCloser k =>
    simp only [Stream.effect]
    split
    · exact h.of_release rfl
    · exact h
  | clean | stop | fail _ => exact h.of_live rfl rfl rfl
  | watch => exact { h.cancelOnce with }
  | pull => exact h.pull
  | wake => exact h.wake
  | throwPull => exact h.raiseAfterClose
  | aclose => exact h.aclose
  | join k => exact h.afterJoin k
  | discarded | finished | closerDone _ => exact h.of_release rfl
  | read =>
    simp only [Stream.effect, World.read]
    split <;> exact { h with }
  | dispatched _ | setEvent | raised => exact { h with }

/-! ## The lease is not released before the upstream is closed -/

structure CloseInv (s : World D Chunk) : Prop where
  before : s.run ≠ .handedOff → s.producer = .unstarted
  early : s.producer = .unstarted →
    s.throwing = false ∧ s.requested = false ∧ s.detected = false ∧ s.callback = false
  held : s.producer = .unstarted → s.run ≠ .done → s.lease.released = false ∧ s.close = .pending
  ended : s.run = .done → s.factory = some .stream → s.close = .completed
  joined : s.run = .done ∨ s.run = .discarding → s.factory ≠ none
  started : s.producer ≠ .unstarted → s.started
  detect : s.run ≠ .done → s.producer.isDone = false → s.lease.released = true →
    s.detected
  cut : s.close = .interrupted → s.detected
  thrown : s.throwing → s.producer.isClosing → s.detected
  callback : s.callback → s.producer.isDone
  done : s.producer.isDone → s.close ≠ .pending
  closers : ∀ k, s.closers k ≠ .closing

theorem CloseInv.started_of_not_fragile (h : CloseInv s) (hs : s.run = .handedOff)
    (hf : fragile s = false) : s.producer ≠ .unstarted := by
  intro hp
  have he := h.early hp
  have hh := h.held hp (by rw [hs]; simp)
  simp [fragile, hp, he.2.1, hh.1] at hf

/-- A first cancel request that reaches a closing producer finds the lease released, so output was
detected. -/
theorem CloseInv.cancelOnce (h : CloseInv s) (hs : s.run = .handedOff) (hf : fragile s = false) :
    CloseInv s.cancelOnce := by
  have hu := h.started_of_not_fragile hs hf
  unfold World.cancelOnce
  split
  · next hc =>
    simp only [Bool.and_eq_true, Bool.not_eq_true'] at hc
    exact { h with
      early := fun hp => absurd hp hu
      thrown := fun _ hcl => by
        refine h.detect (by rw [hs]; simp) hc.1 ?_
        cases hl : s.lease.released with
        | true => rfl
        | false =>
          exfalso
          cases hp : s.producer <;> simp [fragile, hp, hc.2, hl, Producer.isClosing] at hf hcl }
  · exact h

theorem CloseInv.afterJoin (h : CloseInv s) (hd : s.producer.isDone) (k : Nat) :
    CloseInv (s.afterJoin k) := by
  have hu : s.producer ≠ .unstarted := fun hp => by rw [hp] at hd; exact absurd hd (by simp [Producer.isDone])
  unfold World.afterJoin
  rw [if_pos (h.started hu)]
  exact { h with
    held := fun hp => absurd hp hu
    detect := fun _ hn => absurd (hd.symm.trans hn) (by simp)
    closers := fun j => by
      by_cases hj : j = k
      · simp [hj]
      · simpa [Function.update_of_ne hj] using h.closers j }

theorem CloseInv.aclose (h : CloseInv s) (hs : s.run = .handedOff) (hf : fragile s = false) :
    CloseInv s.aclose := by
  have hc : CloseInv (World.cancelOnce
      { s with closed := true, nextCloser := s.nextCloser + 1 }) :=
    CloseInv.cancelOnce { h with } hs hf
  unfold World.aclose
  simp only
  split
  · next hd => exact hc.afterJoin hd _
  · exact { hc with
      closers := fun j => by
        by_cases hj : j = s.nextCloser
        · simp [hj]
        · simpa [Function.update_of_ne hj] using hc.closers j }

theorem CloseInv.raiseAfterClose (h : CloseInv s) (hs : s.run = .handedOff)
    (hf : fragile s = false) : CloseInv s.raiseAfterClose :=
  { h.aclose hs hf with }

theorem fragile_of_isDone (hd : s.producer.isDone = true) : fragile s = false := by
  cases hp : s.producer <;> simp [fragile, hp, Producer.isDone] at hd ⊢

theorem CloseInv.endPull (h : CloseInv s) (hs : s.run = .handedOff)
    (hd : s.producer.isDone) (o : Outcome) : CloseInv (s.endPull o) := by
  unfold World.endPull
  split
  · exact h.raiseAfterClose hs (fragile_of_isDone hd)
  · exact { h with }

theorem CloseInv.pull (h : CloseInv s) (hs : s.run = .handedOff)
    (hf : s.event = true → fragile s = false) : CloseInv s.pull := by
  unfold World.pull
  split
  · next he => exact h.raiseAfterClose hs (hf he)
  · split
    · exact { h with }
    · split
      · next hp => exact h.endPull hs (by rw [hp]; rfl) _
      · exact { h with }

theorem CloseInv.wake (h : CloseInv s) (hs : s.run = .handedOff)
    (hf : s.event = true → fragile s = false) : CloseInv s.wake := by
  unfold World.wake
  split
  · next he => exact h.raiseAfterClose hs (hf he)
  · split
    · exact { h with }
    · split
      · next hp =>
        split
        · exact { h with }
        · exact h.endPull hs (by rw [hp]; rfl) _
      · next _ hp => exact h.endPull hs (by rw [hp]; rfl) _
      · exact h

theorem CloseInv.afterFactory (h : CloseInv s) (hp : s.producer = .unstarted)
    (hr : s.run ≠ .done) (hf : s.factory ≠ none) : CloseInv s.afterFactory := by
  unfold World.afterFactory
  split
  · exact { h with
      before := fun _ => hp
      held := fun _ _ => h.held hp hr
      ended := nofun
      joined := fun _ => hf
      detect := fun _ => h.detect hr }
  · next hn =>
    exact { h with
      before := fun _ => hp
      held := fun _ ho => absurd rfl ho
      ended := fun _ hs => absurd hs hn
      joined := fun _ => hf
      detect := fun ho => absurd rfl ho }

theorem CloseInv.unwindRun (h : CloseInv s) (hr : s.run = .racing) : CloseInv s.unwindRun := by
  have hp := h.before (by rw [hr]; simp)
  have hn : s.run ≠ .done := by rw [hr]; simp
  unfold World.unwindRun
  split
  · next hf => exact h.afterFactory hp hn (by intro hc; rw [hc] at hf; exact absurd hf (by simp))
  · exact { h with
      before := fun _ => hp
      held := fun _ _ => h.held hp hn
      ended := nofun
      joined := nofun
      detect := fun _ => h.detect hn }

/-- Output is detected together with the early release. -/
theorem CloseInv.observe (h : CloseInv s) (hp : s.producer = .pulling) (c : Chunk) :
    CloseInv (s.observe feed c) := by
  have hu : s.producer ≠ .unstarted := by rw [hp]; simp
  unfold World.observe
  split
  · exact h
  · simp only
    split
    · exact { h with
        early := fun hc => absurd hc hu
        held := fun hc => absurd hc hu
        detect := fun _ _ _ => rfl
        cut := fun _ => rfl
        thrown := fun _ _ => rfl }
    · exact { h with }

/-- The producer goes on to an await point where it neither closes nor is done. -/
theorem CloseInv.of_open (h : CloseInv s) (hs : s.run = .handedOff) (hd : s.producer.isDone = false)
    (hu : s.producer ≠ .unstarted)
    (ht : t = { s with producer := t.producer, queue := t.queue, reader := t.reader })
    (hu' : t.producer ≠ .unstarted) (hd' : t.producer.isDone = false)
    (hc' : t.producer.isClosing = true → s.throwing = false) : CloseInv t := by
  rw [ht]
  exact { h with
    before := fun hr => absurd hs hr
    early := fun hc => absurd hc hu'
    held := fun hc => absurd hc hu'
    started := fun _ => h.started hu
    detect := fun hr _ => h.detect hr hd
    thrown := fun hth hc => by rw [hc' hc] at hth; cases hth
    callback := fun hc => by rw [h.callback hc] at hd; cases hd
    done := fun hc => by rw [hd'] at hc; exact absurd hc (by simp) }

theorem CloseInv.quiet (h : CloseInv s) : CloseInv { s with throwing := false } :=
  { h with
    early := fun hp => ⟨rfl, (h.early hp).2⟩
    thrown := nofun }

theorem CloseInv.put (h : CloseInv s) (hs : s.run = .handedOff) (hd : s.producer.isDone = false)
    (hu : s.producer ≠ .unstarted) (c : Chunk) : CloseInv (s.put c) := by
  unfold World.put
  split
  · exact h.of_open hs hd hu rfl (by simp [World.putNow]) rfl fun hc => absurd hc (by simp [World.putNow, Producer.isClosing])
  · exact h.of_open hs hd hu rfl (by simp) rfl fun hc => absurd hc (by simp [Producer.isClosing])

theorem observe_frame (s : World D Chunk) (c : Chunk) :
    (s.observe feed c).producer = s.producer ∧ (s.observe feed c).run = s.run ∧
      (s.observe feed c).yielded = s.yielded := by
  unfold World.observe
  split
  · exact ⟨rfl, rfl, rfl⟩
  · simp only
    split <;> exact ⟨rfl, rfl, rfl⟩

theorem pulling_open (hp : s.producer.isPulling) :
    s.producer.isDone = false ∧ s.producer ≠ .unstarted := by
  cases h : s.producer <;> simp [h, Producer.isPulling, Producer.isDone] at hp ⊢

/-- **Every `Clean` step keeps the order of close and release.** -/
theorem CloseInv.effect [DecidableEq Chunk] (h : CloseInv s) (hc : Clean s e)
    (he : enabled s e) : CloseInv (effect feed s e) := by
  have hr := enabled_ready he
  have hs := enabled_stream he
  cases e with
  | dispatched r =>
    have hn : s.factory = none := by simpa [ready] using hr
    exact { h with
      ended := fun ho => absurd hn (h.joined (Or.inl ho))
      joined := fun _ => by simp [Stream.effect] }
  | proceed =>
    simp only [Stream.effect, World.proceed]
    split
    · next hrun =>
      split
      · have hp := h.before (by rw [hrun]; simp)
        exact { h with
          before := fun ho => absurd rfl ho
          held := fun _ _ => h.held hp (by rw [hrun]; simp)
          ended := nofun
          joined := nofun
          detect := fun _ => h.detect (by rw [hrun]; simp) }
      · exact h.unwindRun hrun
    · next hrun =>
      have hf : s.factory.isSome := by simpa [ready, hrun] using hr
      exact h.afterFactory (h.before (by rw [hrun]; simp)) (by rw [hrun]; simp)
        fun hc => by rw [hc] at hf; cases hf
    · exact h
  | discarded =>
    have hrun : s.run = .discarding := by simpa [ready] using hr
    have hp := h.before (by rw [hrun]; simp)
    have hh := h.held hp (by rw [hrun]; simp)
    exact { h with
      before := fun _ => hp
      held := fun _ ho => absurd rfl ho
      ended := fun _ _ => by simp [Stream.effect, World.closeEnds, World.release, hh.2]
      joined := fun _ => h.joined (Or.inr hrun)
      detect := fun ho => absurd rfl ho
      cut := fun hcut => by
        simp [Stream.effect, World.closeEnds, World.release, hh.2] at hcut
      done := fun hd => by simp [Stream.effect, World.closeEnds, World.release, hh.2] }
  | throwRun =>
    simp only [Stream.effect, World.throwRun]
    split
    · next hrun => exact h.unwindRun hrun
    · next hrun => exact absurd hrun (hc.discard rfl)
    · exact h
  | setEvent | raised => exact { h with }
  | start =>
    have hp : s.producer = .unstarted := by simpa [ready] using hr
    have hrun := hs rfl
    have ht := (h.early hp).1
    simp only [Stream.effect]
    rw [if_neg (by rw [ht]; simp)]
    have hh := h.held hp (by rw [hrun]; simp)
    exact { h with
      before := fun ho => absurd hrun ho
      early := nofun
      held := nofun
      started := fun _ => rfl
      detect := fun _ _ hl => absurd (hh.1.symm.trans hl) (by simp)
      thrown := fun hth => absurd (ht.symm.trans hth) (by simp)
      callback := fun hcb => absurd ((h.early hp).2.2.2.symm.trans hcb) (by simp)
      done := fun hd => absurd hd (by simp [Producer.isDone]) }
  | chunk c =>
    have hp : s.producer = .pulling := by
      simp only [ready, Bool.and_eq_true, decide_eq_true_eq] at hr
      exact hr.1
    have hy : CloseInv { s with yielded := s.yielded ++ [c] } := { h with }
    obtain ⟨hop, hor, -⟩ := @observe_frame _ _ feed { s with yielded := s.yielded ++ [c] } c
    refine CloseInv.put (hy.observe hp c) ?_ ?_ ?_ c
    · rw [hor]; exact hs rfl
    · rw [hop]; simp [hp, Producer.isDone]
    · rw [hop]; simp [hp]
  | clean =>
    simp only [ready, Bool.and_eq_true, decide_eq_true_eq, Bool.not_eq_true'] at hr
    exact h.of_open (hs rfl) (by simp [hr.1, Producer.isDone]) (by simp [hr.1]) rfl
      (by simp [Stream.effect]) rfl fun _ => hr.2
  | stop =>
    simp only [ready, Bool.and_eq_true, Bool.not_eq_true'] at hr
    obtain ⟨hd, hu⟩ := pulling_open hr.1
    exact h.of_open (hs rfl) hd hu rfl (by simp [Stream.effect]) rfl fun _ => hr.2
  | fail o =>
    simp only [ready, Bool.and_eq_true, Bool.not_eq_true'] at hr
    obtain ⟨hd, hu⟩ := pulling_open hr.1.1
    exact h.of_open (hs rfl) hd hu rfl (by simp [Stream.effect]) rfl fun _ => hr.1.2
  | interrupt =>
    simp only [ready, Bool.and_eq_true] at hr
    have hu : s.producer ≠ .unstarted := fun hp =>
      absurd ((h.early hp).1.symm.trans hr.2) (by simp)
    simp only [Stream.effect]
    split
    · next hcl =>
      have hdet := h.thrown hr.2 hcl
      exact { h with
        early := fun hp => absurd hp hu
        held := fun hp => absurd hp hu
        ended := fun ho => absurd (ho.symm.trans (hs rfl)) (by simp)
        cut := fun _ => hdet
        thrown := fun ht => absurd ht (by simp [World.closeCut])
        done := fun _ => by
          simp only [World.closeCut]
          split <;> simp }
    · exact { h with
        early := fun hp => absurd hp hu
        thrown := nofun }
  | put =>
    simp only [Stream.effect]
    split
    · next c hp =>
      have hd : s.producer.isDone = false := by rw [hp]; rfl
      have hu : s.producer ≠ .unstarted := by rw [hp]; simp
      split
      · exact h.quiet.of_open (hs rfl) hd hu rfl (by simp) rfl fun _ => rfl
      · exact h.of_open (hs rfl) hd hu rfl (by simp [World.putNow]) rfl
          fun hcl => absurd hcl (by simp [World.putNow, Producer.isClosing])
    · exact h
  | closeDone error =>
    simp only [Stream.effect]
    split
    · exact { h with
        before := fun ho => absurd (hs rfl) ho
        early := fun hp => absurd hp (by simp [World.finish])
        held := fun hp => absurd hp (by simp [World.finish])
        ended := fun ho => absurd (ho.symm.trans (hs rfl)) (by simp)
        started := fun _ => h.started (by simp_all)
        detect := fun _ hd => absurd hd (by simp [World.finish, Producer.isDone])
        cut := fun hcut => by
          simp only [World.finish, World.release, World.closeEnds] at hcut
          split at hcut
          · next hi => exact h.cut hi
          · cases hcut
        thrown := fun _ hcl => absurd hcl (by simp [World.finish, Producer.isClosing])
        callback := fun _ => rfl
        done := fun _ => by
          simp only [World.finish, World.release, World.closeEnds]
          split <;> simp }
    · exact h
  | finished =>
    have hd := h.callback (by simpa [ready] using hr)
    have hu : s.producer ≠ .unstarted := fun hp => absurd (hp ▸ hd) (by simp [Producer.isDone])
    exact { h with
      early := fun hp => absurd hp hu
      held := fun hp => absurd hp hu
      detect := fun _ hn => absurd (hd.symm.trans hn) (by simp)
      callback := fun _ => hd }
  | watch => exact { h.cancelOnce (hs rfl) (hc.request rfl) with }
  | pull => exact h.pull (hs rfl) fun hev => hc.request hev
  | read =>
    simp only [Stream.effect, World.read]
    split <;> exact { h with }
  | wake => exact h.wake (hs rfl) fun hev => hc.request hev
  | throwPull => exact h.raiseAfterClose (hs rfl) (hc.request rfl)
  | aclose => exact h.aclose (hs rfl) (hc.request rfl)
  | join k =>
    simp only [ready, Bool.and_eq_true] at hr
    exact h.afterJoin hr.2 k
  | closerDone k => exact absurd (by simpa [ready] using hr) (h.closers k)
  | throwCloser k =>
    simp only [Stream.effect]
    rw [if_neg (h.closers k)]
    exact h

/-! ## The consumer gets the upstream's chunks in order -/

/-- The chunk a reader has taken and no pull has returned. -/
def Reader.held : Reader Chunk → List Chunk
  | .took c => [c]
  | _ => []

/-- The chunk the producer waits to put. -/
def Producer.held : Producer Chunk → List Chunk
  | .putting c => [c]
  | _ => []

/-- The chunks between the upstream and the consumer, oldest first. -/
def World.pipe (s : World D Chunk) : List Chunk :=
  s.reader.held ++ s.queue.toList ++ s.producer.held

/-- The upstream's loop is not over. -/
def Producer.feeding : Producer Chunk → Bool
  | .closing _ | .done _ => false
  | _ => true

structure PipeInv (s : World D Chunk) : Prop where
  got : s.got <+: s.yielded
  flow : s.lost = false → s.got ++ s.pipe <+: s.yielded
  whole : s.lost = false → s.requested = false ∨ s.producer.feeding = true →
    s.got ++ s.pipe = s.yielded
  asked : s.requested → s.event ∨ s.closed
  thrown : s.throwing → s.requested
  waiting : s.consumer = .waiting → s.lost = false
  idle : s.consumer = .idle → s.reader = .none
  empty : s.reader = .waiting → s.queue = none
  raising : s.lost ∨ (∃ k, s.consumer = .raising k) → s.closed
  ended : s.ended → s.producer.isDone ∧ s.queue = none ∧ s.reader = .none

theorem PipeInv.cancelOnce (h : PipeInv s) (hc : s.event ∨ s.closed) :
    PipeInv s.cancelOnce := by
  unfold World.cancelOnce
  split
  · next hn =>
    simp only [Bool.and_eq_true, Bool.not_eq_true'] at hn
    exact { h with
      whole := fun hl _ => h.whole hl (Or.inl hn.2)
      asked := fun _ => hc
      thrown := fun _ => rfl }
  · exact h

theorem PipeInv.afterJoin (h : PipeInv s) (k : Nat) : PipeInv (s.afterJoin k) := by
  unfold World.afterJoin
  split <;> exact { h with }

theorem PipeInv.aclose (h : PipeInv s) : PipeInv s.aclose := by
  have hc : PipeInv { s with closed := true, nextCloser := s.nextCloser + 1 } :=
    { h with asked := fun _ => Or.inr rfl, raising := fun _ => rfl }
  have ha := hc.cancelOnce (Or.inr rfl)
  unfold World.aclose
  simp only
  split
  · exact ha.afterJoin _
  · exact { ha with }

theorem aclose_closed (s : World D Chunk) : s.aclose.closed := by
  simp only [World.aclose, World.cancelOnce, World.afterJoin]
  split <;> split <;> first | rfl | (split <;> rfl)

theorem PipeInv.raiseAfterClose (h : PipeInv s) : PipeInv s.raiseAfterClose :=
  { h.aclose with
    waiting := fun hw => absurd hw (by simp [World.raiseAfterClose])
    idle := fun hi => absurd hi (by simp [World.raiseAfterClose])
    raising := fun _ => aclose_closed s }

theorem PipeInv.endPull (h : PipeInv s) (hd : s.producer.isDone) (hq : s.queue = none)
    (hh : s.reader.held = []) (o : Outcome) : PipeInv (s.endPull o) := by
  unfold World.endPull
  split
  · exact h.raiseAfterClose
  · have hpipe : ({ s with reader := .none, consumer := .idle, ended := true } :
        World D Chunk).pipe = s.pipe := by
      simp [World.pipe, Reader.held] at hh ⊢
      exact hh
    exact { h with
      flow := fun hl => by rw [hpipe]; exact h.flow hl
      whole := fun hl hr => by rw [hpipe]; exact h.whole hl hr
      waiting := nofun
      idle := fun _ => rfl
      empty := nofun
      raising := fun hx => h.raising (hx.imp_right fun ⟨k, hk⟩ => absurd hk (by simp))
      ended := fun _ => ⟨hd, hq, rfl⟩ }

/-- A pull returns the oldest chunk of the pipe. -/
theorem PipeInv.deliver (h : PipeInv s) (hl : s.lost = false) {c : Chunk}
    (hp : s.pipe = c :: t.pipe)
    (ht : t = { s with got := s.got ++ [c], reader := .none, consumer := .idle, queue := t.queue })
    (hended : s.ended → t.queue = none) : PipeInv t := by
  have hf := h.flow hl
  have hw := h.whole hl
  rw [hp, List.append_cons] at hf hw
  have hpt : ({ s with got := s.got ++ [c], reader := .none, consumer := .idle, queue := t.queue } :
        World D Chunk).pipe = t.pipe := congrArg World.pipe ht.symm
  rw [ht]
  exact { h with
    got := (List.prefix_append _ _).trans hf
    flow := fun _ => by rw [hpt]; exact hf
    whole := fun _ hr => by rw [hpt]; exact hw hr
    waiting := nofun
    idle := fun _ => rfl
    empty := nofun
    raising := fun hx => h.raising (hx.imp_right fun ⟨k, hk⟩ => absurd hk (by simp))
    ended := fun he => ⟨(h.ended he).1, hended he, rfl⟩ }

theorem PipeInv.pull (h : PipeInv s) (hi : s.consumer = .idle)
    (hl : s.lost → s.event) : PipeInv s.pull := by
  have hr := h.idle hi
  unfold World.pull
  split
  · exact h.raiseAfterClose
  · next he =>
    have hlost : s.lost = false := by
      cases hx : s.lost with
      | false => rfl
      | true => exact absurd (hl hx) he
    split
    · next c hq =>
      exact h.deliver hlost (by simp [World.pipe, World.deliver, hr, hq, Reader.held]) rfl
        fun _ => rfl
    · next hq =>
      split
      · next hp => exact h.endPull (by rw [hp]; rfl) hq (by rw [hr]; rfl) _
      · next hp =>
        have hpipe : ({ s with reader := .scheduled, consumer := .waiting } :
            World D Chunk).pipe = s.pipe := by
          simp [World.pipe, Reader.held, hr]
        exact { h with
          flow := fun hx => by rw [hpipe]; exact h.flow hx
          whole := fun hx hy => by rw [hpipe]; exact h.whole hx hy
          waiting := fun _ => hlost
          idle := nofun
          empty := nofun
          raising := fun hx => h.raising (hx.imp_right fun ⟨k, hk⟩ => absurd hk (by simp))
          ended := fun hx => by
            obtain ⟨hd, -, -⟩ := h.ended hx
            cases hpr : s.producer <;> simp [hpr, Producer.isDone] at hd
            exact absurd hpr (hp _) }

theorem PipeInv.wake (h : PipeInv s) (hw : s.consumer = .waiting)
    (hr : (∃ c, s.reader = .took c) ∨ s.reader = .waiting) : PipeInv s.wake := by
  have hl := h.waiting hw
  unfold World.wake
  split
  · exact h.raiseAfterClose
  · split
    · next c hc =>
      refine h.deliver hl (by simp [World.pipe, World.deliver, hc, Reader.held]) rfl fun he => ?_
      exact absurd ((h.ended he).2.2.symm.trans hc) (by simp)
    · next hn =>
      have hnot : ¬∃ c, s.reader = .took c := not_exists.mpr hn
      have hwait := hr.resolve_left hnot
      have hq := h.empty hwait
      split
      · next hp =>
        rw [hq]
        exact h.endPull (by rw [hp]; rfl) hq (by rw [hwait]; rfl) _
      · next _ hp => exact h.endPull (by rw [hp]; rfl) hq (by rw [hwait]; rfl) _
      · exact h

/-- A move that touches neither the consumer's side nor the pipe. -/
theorem PipeInv.of_same (h : PipeInv s)
    (ht : t = { s with run := t.run, lease := t.lease, close := t.close, producer := t.producer,
                       throwing := t.throwing, callback := t.callback, watcher := t.watcher,
                       closers := t.closers, started := t.started, event := t.event,
                       factory := t.factory, detector := t.detector, detected := t.detected })
    (hp : t.producer.held = s.producer.held)
    (hd : s.producer.isDone → t.producer.isDone)
    (hf : s.requested → t.producer.feeding → s.producer.feeding)
    (hth : t.throwing → s.throwing) (hev : s.event → t.event) :
    PipeInv t := by
  have hpipe : t.pipe = s.pipe := by
    rw [World.pipe, World.pipe, hp, ht]
  have hreq : t.requested = s.requested := by rw [ht]
  have hgot : t.got = s.got := by rw [ht]
  have hy : t.yielded = s.yielded := by rw [ht]
  have hl : t.lost = s.lost := by rw [ht]
  have hcl : t.closed = s.closed := by rw [ht]
  have hco : t.consumer = s.consumer := by rw [ht]
  have hrd : t.reader = s.reader := by rw [ht]
  have hq : t.queue = s.queue := by rw [ht]
  have hen : t.ended = s.ended := by rw [ht]
  exact {
    got := by rw [hgot, hy]; exact h.got
    flow := by rw [hl, hgot, hy, hpipe]; exact h.flow
    whole := by
      rw [hl, hgot, hy, hpipe, hreq]
      intro hx hy
      refine h.whole hx ?_
      cases hr : s.requested with
      | false => exact Or.inl rfl
      | true => exact Or.inr (hf hr (hy.resolve_left (by simp [hr])))
    asked := by rw [hreq, hcl]; exact fun hx => (h.asked hx).imp_left hev
    thrown := by rw [hreq]; exact fun hx => h.thrown (hth hx)
    waiting := by rw [hco, hl]; exact h.waiting
    idle := by rw [hco, hrd]; exact h.idle
    empty := by rw [hrd, hq]; exact h.empty
    raising := by rw [hl, hco, hcl]; exact h.raising
    ended := by rw [hen, hq, hrd]; exact fun hx => ⟨hd (h.ended hx).1, (h.ended hx).2⟩ }

theorem observe_yielded (s : World D Chunk) (y : List Chunk) (c : Chunk) :
    ({ s with yielded := y } : World D Chunk).observe feed c =
      { s.observe feed c with yielded := y } := by
  unfold World.observe
  split
  · rfl
  · simp only
    split <;> rfl

theorem PipeInv.observe (h : PipeInv s) (c : Chunk) : PipeInv (s.observe feed c) := by
  unfold World.observe
  split
  · exact h
  · simp only
    split <;> exact { h with }

/-- A chunk the upstream yields goes to the end of the pipe. -/
theorem PipeInv.put (h : PipeInv s) (hp : s.producer = .pulling) (c : Chunk) :
    PipeInv (World.put { s with yielded := s.yielded ++ [c] } c) := by
  have hfeed : s.producer.feeding := by rw [hp]; rfl
  have hend : s.ended → False := fun he => by
    have hd := (h.ended he).1
    rw [hp] at hd
    exact absurd hd (by simp [Producer.isDone])
  have hgot : s.got <+: s.yielded ++ [c] := h.got.trans (List.prefix_append _ _)
  have hall : ∀ {q : List Chunk}, q = s.pipe ++ [c] → s.lost = false →
      s.got ++ q = s.yielded ++ [c] := by
    rintro q rfl hl
    rw [← List.append_assoc, h.whole hl (Or.inr hfeed)]
  unfold World.put
  split
  · next hq =>
    have hq : s.queue = none := hq
    have hpipe : (World.putNow { s with yielded := s.yielded ++ [c] } c).pipe = s.pipe ++ [c] := by
      cases hr : s.reader <;>
        simp [World.pipe, World.putNow, hr, hq, hp, Reader.held, Producer.held]
    exact { h with
      got := hgot
      flow := fun hl => (hall hpipe hl).symm ▸ List.prefix_refl _
      whole := fun hl _ => hall hpipe hl
      idle := fun hi => by simp [World.putNow, h.idle hi]
      empty := fun hr => by
        simp only [World.putNow] at hr
        cases hrd : s.reader <;> simp [hrd] at hr
      ended := fun he => absurd he hend }
  · have hpipe : ({ s with yielded := s.yielded ++ [c], producer := .putting c } :
        World D Chunk).pipe = s.pipe ++ [c] := by
      simp [World.pipe, hp, Producer.held]
    exact { h with
      got := hgot
      flow := fun hl => (hall hpipe hl).symm ▸ List.prefix_refl _
      whole := fun hl _ => hall hpipe hl
      ended := fun he => absurd he hend }

theorem PipeInv.putNow (h : PipeInv s) {c : Chunk} (hp : s.producer = .putting c)
    (hq : s.queue = none) : PipeInv (s.putNow c) := by
  have hfeed : s.producer.feeding := by rw [hp]; rfl
  have hpipe : (s.putNow c).pipe = s.pipe := by
    cases hr : s.reader <;>
      simp [World.pipe, World.putNow, hr, hq, hp, Reader.held, Producer.held]
  exact { h with
    flow := fun hl => by rw [hpipe]; exact h.flow hl
    whole := fun hl _ => by rw [hpipe]; exact h.whole hl (Or.inr hfeed)
    idle := fun hi => by simp [World.putNow, h.idle hi]
    empty := fun hr => by
      simp only [World.putNow] at hr
      cases hrd : s.reader <;> simp [hrd] at hr
    ended := fun he => by
      have hd := (h.ended he).1
      rw [hp] at hd
      exact absurd hd (by simp [Producer.isDone]) }

/-- A cancelled put drops its chunk; the upstream is not pulled again. -/
theorem PipeInv.drop (h : PipeInv s) {c : Chunk} (hp : s.producer = .putting c)
    (ht : s.throwing) :
    PipeInv { s with producer := .closing .cancelled, throwing := false } := by
  have hpipe : s.pipe = ({ s with producer := .closing .cancelled, throwing := false } :
      World D Chunk).pipe ++ [c] := by
    simp [World.pipe, hp, Producer.held]
  exact { h with
    flow := fun hl => by
      have hf := h.flow hl
      rw [hpipe, ← List.append_assoc] at hf
      exact (List.prefix_append _ _).trans hf
    whole := fun _ hr => by
      have hreq : s.requested := h.thrown ht
      rcases hr with hr | hr
      · cases hreq.symm.trans hr
      · exact absurd hr (by simp [Producer.feeding])
    thrown := nofun
    ended := fun he => by
      have hd := (h.ended he).1
      rw [hp] at hd
      exact absurd hd (by simp [Producer.isDone]) }

theorem PipeInv.read (h : PipeInv s) (hr : s.reader = .scheduled) : PipeInv s.read := by
  have hend : s.ended → False := fun he =>
    absurd ((h.ended he).2.2.symm.trans hr) (by simp)
  have hidle : s.consumer = .idle → False := fun hi =>
    absurd ((h.idle hi).symm.trans hr) (by simp)
  unfold World.read
  split
  · next c hq =>
    have hpipe : ({ s with queue := none, reader := .took c } : World D Chunk).pipe = s.pipe := by
      simp [World.pipe, hr, hq, Reader.held]
    exact { h with
      flow := fun hl => by rw [hpipe]; exact h.flow hl
      whole := fun hl hx => by rw [hpipe]; exact h.whole hl hx
      idle := fun hi => absurd hi hidle
      empty := fun _ => rfl
      ended := fun he => absurd he hend }
  · next hq =>
    have hpipe : ({ s with reader := .waiting } : World D Chunk).pipe = s.pipe := by
      simp [World.pipe, hr, Reader.held]
    exact { h with
      flow := fun hl => by rw [hpipe]; exact h.flow hl
      whole := fun hl hx => by rw [hpipe]; exact h.whole hl hx
      idle := fun hi => absurd hi hidle
      empty := fun _ => hq
      ended := fun he => absurd he hend }

theorem PipeInv.raised (h : PipeInv s) {k : Nat} (hk : s.consumer = .raising k) :
    PipeInv s.raised := by
  have hclosed := h.raising (Or.inr ⟨k, hk⟩)
  have hpipe : s.raised.lost = false → s.lost = false ∧ s.raised.pipe = s.pipe := by
    intro hl
    cases hr : s.reader <;> simp [World.raised, hr] at hl <;>
      simp [World.pipe, World.raised, hr, hl, Reader.held]
  exact { h with
    flow := fun hl => by rw [(hpipe hl).2]; exact h.flow (hpipe hl).1
    whole := fun hl hx => by rw [(hpipe hl).2]; exact h.whole (hpipe hl).1 hx
    waiting := fun hw => absurd hw (by simp [World.raised])
    idle := fun _ => rfl
    empty := fun hr => absurd hr (by simp [World.raised])
    raising := fun _ => hclosed
    ended := fun he => ⟨(h.ended he).1, (h.ended he).2.1, rfl⟩ }

/-- The upstream's loop ends. -/
theorem PipeInv.leave (h : PipeInv s) (hp : s.producer.isPulling) (o : Outcome) :
    PipeInv { s with producer := .closing o } := by
  obtain ⟨hd, -⟩ := pulling_open hp
  refine h.of_same rfl ?_ (fun hx => absurd (hd.symm.trans hx) (by simp))
    (fun _ hf => absurd hf (by simp [Producer.feeding])) id id
  cases hpr : s.producer <;> simp [hpr, Producer.isPulling, Producer.held] at hp ⊢

theorem PipeInv.afterFactory (h : PipeInv s) : PipeInv s.afterFactory := by
  unfold World.afterFactory
  split <;> exact { h with }

theorem PipeInv.unwindRun (h : PipeInv s) : PipeInv s.unwindRun := by
  unfold World.unwindRun
  split
  · exact h.afterFactory
  · exact { h with }

/-- **Every step keeps the pipe**, if nobody pulls again after a cancelled pull dropped a chunk. -/
theorem PipeInv.effect [DecidableEq Chunk] (h : PipeInv s)
    (hc : e = .pull → s.lost → s.event) (he : enabled s e) :
    PipeInv (effect feed s e) := by
  have hr := enabled_ready he
  cases e with
  | proceed =>
    simp only [Stream.effect, World.proceed]
    split
    · split
      · exact { h with }
      · exact h.unwindRun
    · exact h.afterFactory
    · exact h
  | throwRun =>
    simp only [Stream.effect, World.throwRun]
    split
    · exact h.unwindRun
    · exact { h with }
    · exact h
  | setEvent => exact { h with asked := fun _ => Or.inl rfl }
  | start =>
    have hp : s.producer = .unstarted := by simpa [ready] using hr
    simp only [Stream.effect]
    split
    · exact h.of_same rfl (by simp [World.finish, hp, Producer.held])
        (fun hd => rfl) (fun _ hf => absurd hf (by simp [World.finish, Producer.feeding]))
        nofun id
    · exact h.of_same rfl (by simp [hp, Producer.held])
        (fun hd => absurd hd (by simp [hp, Producer.isDone])) (fun _ _ => by rw [hp]; rfl) id id
  | chunk c =>
    have hp : s.producer = .pulling := by
      simp only [ready, Bool.and_eq_true, decide_eq_true_eq] at hr
      exact hr.1
    obtain ⟨hop, -, hoy⟩ := @observe_frame _ _ feed s c
    have ho : PipeInv (s.observe feed c) := h.observe c
    simp only [Stream.effect]
    rw [observe_yielded, ← hoy]
    exact ho.put (hop.trans hp) c
  | clean =>
    simp only [ready, Bool.and_eq_true, decide_eq_true_eq] at hr
    exact h.of_same rfl (by simp [Stream.effect, hr.1, Producer.held])
      (fun hd => absurd hd (by simp [hr.1, Producer.isDone])) (fun _ _ => by rw [hr.1]; rfl) id id
  | stop =>
    simp only [ready, Bool.and_eq_true] at hr
    exact h.leave hr.1 .ok
  | fail o =>
    simp only [ready, Bool.and_eq_true] at hr
    exact h.leave hr.1.1 o
  | interrupt =>
    simp only [Stream.effect]
    split
    · exact h.of_same rfl rfl id (fun _ => id) (fun ht => absurd ht (by simp [World.closeCut])) id
    · exact h.of_same rfl rfl id (fun _ => id) nofun id
  | put =>
    simp only [Stream.effect]
    split
    · next c hp =>
      simp only [ready, hp, Bool.or_eq_true, Option.isNone_iff_eq_none] at hr
      split
      · next ht => exact h.drop hp ht
      · next ht => exact h.putNow hp (hr.resolve_left ht)
    · exact h
  | closeDone error =>
    simp only [Stream.effect]
    split
    · next o hp =>
      exact h.of_same rfl (by simp [World.finish, hp, Producer.held])
        (fun _ => rfl) (fun _ hf => absurd hf (by simp [World.finish, Producer.feeding])) id id
    · exact h
  | watch =>
    simp only [ready, Bool.and_eq_true] at hr
    exact { h.cancelOnce (Or.inl hr.1.2) with }
  | pull => exact h.pull (by simpa [ready] using hr) (hc rfl)
  | read => exact h.read (by simpa [ready] using hr)
  | wake =>
    simp only [ready, Bool.and_eq_true, decide_eq_true_eq] at hr
    refine h.wake hr.1 ?_
    cases hrd : s.reader <;> simp [hrd] at hr ⊢
  | throwPull => exact h.raiseAfterClose
  | raised =>
    cases hco : s.consumer with
    | raising k => exact h.raised hco
    | idle | waiting => simp [ready, hco] at hr
  | aclose => exact h.aclose
  | join k => exact h.afterJoin k
  | throwCloser k =>
    simp only [Stream.effect]
    split
    · exact { h with }
    · exact h
  | dispatched _ | discarded | finished | closerDone _ => exact { h with }

/-! ## Whole runs -/

theorem inv_init {hasCancel : Bool} {d : D} :
    LeaseInv (World.init hasCancel d : World D Chunk) ∧
      CloseInv (World.init hasCancel d : World D Chunk) ∧
      PipeInv (World.init hasCancel d : World D Chunk) := by
  refine ⟨?_, ?_, ?_⟩ <;> constructor <;>
    simp [World.init, Producer.isDone, World.pipe, Reader.held, Producer.held]

theorem CloseInv.completed (h : CloseInv s) (hd : s.detected = false)
    (hl : s.lease.released) (hf : s.factory = some .stream) : s.close = .completed := by
  have hcut : s.close ≠ .interrupted := fun hc => absurd (hd.symm.trans (h.cut hc)) (by simp)
  by_cases ho : s.run = .done
  · exact h.ended ho hf
  · have hdone : s.producer.isDone := by
      by_contra hn
      have hx := h.detect ho (by simpa using hn) hl
      cases hd.symm.trans hx
    have hpend := h.done hdone
    cases hc : s.close with
    | completed => rfl
    | pending => exact absurd hc hpend
    | interrupted => exact absurd hc hcut

theorem PipeInv.complete (h : PipeInv s) (he : s.ended = true) (hev : s.event = false)
    (hc : s.closed = false) : s.got = s.yielded := by
  obtain ⟨hd, hq, hr⟩ := h.ended he
  have hl : s.lost = false := by
    cases hx : s.lost with
    | false => rfl
    | true => exact absurd (hc.symm.trans (h.raising (Or.inl hx))) (by simp)
  have hreq : s.requested = false := by
    cases hx : s.requested with
    | false => rfl
    | true => rcases h.asked hx with ha | ha <;> simp [ha] at hev hc
  have hw := h.whole hl (Or.inl hreq)
  have hpipe : s.pipe = [] := by
    cases hp : s.producer <;> simp [hp, Producer.isDone] at hd
    simp [World.pipe, hp, hq, hr, Reader.held, Producer.held]
  rwa [hpipe, List.append_nil] at hw

instance (s : World D Chunk) (e : Label Chunk) [DecidableEq Chunk] : Decidable (Clean s e) :=
  decidable_of_iff
    ((requests s e = true → fragile s = false) ∧ (e = .throwRun → s.run ≠ .discarding) ∧
      (e = .pull → s.lost → s.event))
    ⟨fun h => ⟨h.1, h.2.1, h.2.2⟩, fun h => ⟨h.request, h.discard, h.resume⟩⟩

/-- A detector for streams of which chunk 1 is the first that carries output. -/
def feedOne (d : Unit) (c : Nat) : Unit × Bool := (d, c = 1)

/-- The client cancels after the role chunk; the cancelled pull of the upstream closes it. -/
def cancelled : List (Label Nat) :=
  [.dispatched .stream, .proceed, .start, .chunk 0, .pull, .setEvent, .watch, .interrupt, .clean,
    .fail .cancelled, .closeDone none, .finished]

/-- The upstream ends by itself; `aclose()` lands while the producer closes it. -/
def closedEarly : List (Label Nat) :=
  [.dispatched .stream, .proceed, .start, .chunk 0, .stop, .aclose, .interrupt,
    .closeDone (some .cancelled)]

/-- `aclose()` before the producer's first turn: the producer never runs its `finally`, and its done
callback releases the lease before `aclose()` closes the upstream. -/
theorem unstarted_released :
    ∃ s, Reach (step feedOne) Free (World.init false ()) s ∧ s.detected = false ∧
      s.factory = some .stream ∧ s.lease.released ∧ s.close = .pending := by
  have hrun : (replay (step feedOne) Free (World.init false ())
      [.dispatched .stream, .proceed, .aclose, .start, .finished]).any (fun s =>
      decide (s.detected = false ∧ s.factory = some .stream ∧ s.lease.released = true ∧
        s.close = .pending)) := by decide
  obtain ⟨s, hs, hd⟩ := reach_any hrun
  exact ⟨s, hs, of_decide_eq_true hd⟩

/-- A second cancellation of `run` interrupts the close of a stream it does not hand off. -/
theorem discard_interrupted :
    ∃ s, Reach (step feedOne) Free (World.init false ()) s ∧ s.detected = false ∧
      s.factory = some .stream ∧ s.lease.released ∧ s.close = .interrupted := by
  have hrun : (replay (step feedOne) Free (World.init false ())
      [.dispatched .stream, .throwRun, .throwRun]).any (fun s =>
      decide (s.detected = false ∧ s.factory = some .stream ∧ s.lease.released = true ∧
        s.close = .interrupted)) := by decide
  obtain ⟨s, hs, hd⟩ := reach_any hrun
  exact ⟨s, hs, of_decide_eq_true hd⟩

/-- A pull after a cancelled one: the chunk the cancelled pull's reader had is skipped. -/
theorem resumed_gap :
    ∃ s, Reach (step feedOne) Free (World.init false ()) s ∧ s.yielded = [0, 1] ∧
      s.got = [1] := by
  have hrun : (replay (step feedOne) Free (World.init false ())
      [.dispatched .stream, .proceed, .start, .pull, .read, .chunk 0, .read, .chunk 1, .throwPull,
        .interrupt, .fail .cancelled, .closeDone none, .finished, .join 0, .raised, .pull]).any
      (fun s => decide (s.yielded = [0, 1] ∧ s.got = [1])) := by decide
  obtain ⟨s, hs, hd⟩ := reach_any hrun
  exact ⟨s, hs, of_decide_eq_true hd⟩

end SparkDeck.PromptGate.Stream
