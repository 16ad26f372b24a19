import SparkDeck.Hub.Writers
import SparkDeck.Lib.Table

/-!
# One writer for each repository

* `one_writer`: in runs whose reservations are taken while the other table's lock is free (`Apart`)
  at most one call is inside its reservation. In runs in which no call gives its repository back
  over a whole snapshot it has written into and left marked (`Clean`), no whole snapshot is marked
  once no call is inside its reservation.
* `two_writers`: a supervised download and a selective one take different locks and write at once;
  and a download cancelled after its last file leaves the marker.

`turn_cases` says what a turn of a call can be. The invariant behind the second half is `Inv.owed`:
a whole snapshot that is marked has a call that wrote into it and has the marker still to remove.
-/

namespace SparkDeck.Hub

open Transition

variable {R F : Type*} [DecidableEq R] [DecidableEq F] {siblings : R → List F}
variable {n n' : Node R F} {a a' : Cache R F} {c : ℕ} {call call' : Call R F} {t : Turn F}
  {st : Stage F} {r : R}

/-- No two calls are inside their reservations. -/
def Node.OneWriter (n : Node R F) : Prop :=
  ∀ (i j : ℕ) (call call' : Call R F), n.calls[i]? = some call → n.calls[j]? = some call' →
    call.stage.active → call'.stage.active → i = j

/-- When no call writes, no snapshot that has every file of the Hub is marked. -/
def Node.Settled (siblings : R → List F) (n : Node R F) : Prop :=
  (∀ call ∈ n.calls, call.stage.active = false) → ∀ r, n.cache.leftover siblings r = false

def Lock.other : Lock → Lock
  | .process => .download
  | .download => .process

/-- A reservation is taken while nothing holds the lock of the other table. -/
def Apart (n : Node R F) : Act R F → Prop
  | .turn c .reserve => ∀ call, n.calls[c]? = some call → n.locked call.kind.lock.other = false
  | _ => True

/-- A call that has written does not fail, and is not cancelled, while a snapshot it wrote into has
every file and still the marker; nor does it remove the marker under another name of the revision
than the Hub's while the snapshot under that one is such. -/
def Clean (siblings : R → List F) (n : Node R F) : Act R F → Prop
  | .turn c .fail => ∀ call, n.calls[c]? = some call → call.stage.owes →
      ∀ r ∈ call.touches, n.cache.leftover siblings r = false
  | .turn c .settle => ∀ call, n.calls[c]? = some call → call.revision ≠ call.commit →
      n.cache.leftover siblings call.commit = false
  | _ => True

open Table in
instance (n : Node R F) (e : Act R F) : Decidable (Apart n e) :=
  match e with
  | .turn c .reserve => inferInstanceAs
    (Decidable (∀ call, n.calls[c]? = some call → n.locked call.kind.lock.other = false))
  | .call .. | .turn _ .leave | .turn _ .inspect | .turn _ .mark | .turn _ .launch
  | .turn _ (.land _) | .turn _ .done | .turn _ .stall | .turn _ .settle | .turn _ .finish
  | .turn _ .fail => isTrue trivial

open Table in
instance (n : Node R F) (e : Act R F) : Decidable (Clean siblings n e) :=
  match e with
  | .turn c .fail => inferInstanceAs (Decidable (∀ call, n.calls[c]? = some call →
      call.stage.owes = true → ∀ r ∈ call.touches, n.cache.leftover siblings r = false))
  | .turn c .settle => inferInstanceAs (Decidable (∀ call, n.calls[c]? = some call →
      call.revision ≠ call.commit → n.cache.leftover siblings call.commit = false))
  | .call .. | .turn _ .leave | .turn _ .reserve | .turn _ .inspect | .turn _ .mark
  | .turn _ .launch | .turn _ (.land _) | .turn _ .done | .turn _ .stall | .turn _ .finish =>
    isTrue trivial

/-! ## Turns -/

/-- What a turn leaves of the cache and of the call's stage. -/
inductive Turned (siblings : R → List F) (a : Cache R F) (call : Call R F) :
    Turn F → Cache R F → Stage F → Prop where
  | reserve : call.stage.owes = false → Turned siblings a call .reserve a .reserved
  /-- The call goes on inside its reservation. -/
  | goes (t : Turn F) (st : Stage F) : call.stage.active →
      (call.stage.owes → st.owes) → Turned siblings a call t a st
  | leave (t : Turn F) : call.stage.owes = false → Turned siblings a call t a .ended
  | mark (b : Bool) (left : List F) : call.stage.active → call.revision ∈ call.touches →
      Turned siblings a call .mark (a.setMarked call.revision b) (.writing left)
  | land (f : F) (left : List F) : call.stage.active → call.commit ∈ call.touches →
      Turned siblings a call (.land f) (a.add call.commit f) (.writing left)
  | unmark : call.stage.active →
      Turned siblings a call .settle (a.setMarked call.revision false) .recording
  | short (st : Stage F) : call.stage.active = true → a.whole siblings call.revision = false →
      Turned siblings a call .settle a st
  | fail : call.stage.active → Turned siblings a call .fail a .ended

omit [DecidableEq R] [DecidableEq F] in
theorem commit_mem_touches (call : Call R F) : call.commit ∈ call.touches := by
  unfold Call.touches
  cases call.kind <;> simp

omit [DecidableEq R] in
theorem whole_of_short {selected : List F}
    (hk : (Kind.selective selected).accepted siblings r)
    (h : (!selected.all (a.present r)) = true) : a.whole siblings r = false := by
  obtain ⟨-, hlisted⟩ := (Bool.and_eq_true _ _).mp hk
  rw [Bool.not_eq_true', List.all_eq_false] at h
  obtain ⟨f, hf, habsent⟩ := h
  exact List.all_eq_false.mpr ⟨f, of_decide_eq_true (List.all_eq_true.mp hlisted f hf), habsent⟩

omit [DecidableEq R] in
/-- The Hub lists a file, so a snapshot that is not `complete` lacks one. -/
theorem whole_of_not_complete {selected : List F}
    (hk : (Kind.selective selected).accepted siblings r)
    (h : ¬a.complete siblings r = true) : a.whole siblings r = false := by
  obtain ⟨hne, hlisted⟩ := (Bool.and_eq_true _ _).mp hk
  cases selected with
  | nil => cases hne
  | cons f selected =>
    have hf := of_decide_eq_true (List.all_eq_true.mp hlisted f (List.mem_cons_self ..))
    by_contra hw
    refine h ((Bool.and_eq_true _ _).mpr ⟨?_, eq_true_of_ne_false hw⟩)
    rw [Bool.not_eq_true', List.isEmpty_eq_false_iff]
    exact List.ne_nil_of_mem hf

theorem turn_cases (hk : call.kind.accepted siblings call.revision)
    (h : n.turn siblings c call t = some n') :
    ∃ a st, n' = { n with cache := a }.goto c call st ∧ Turned siblings n.cache call t a st := by
  have hcommit := commit_mem_touches call
  obtain ⟨kind, revision, commit, stage⟩ := call
  cases stage with
  | waiting =>
    cases t with
    | leave =>
      cases h
      exact ⟨_, _, rfl, .leave _ rfl⟩
    | reserve =>
      obtain ⟨-, h⟩ := Option.ite_none_left_eq_some.mp h
      cases h
      exact ⟨_, _, rfl, .reserve rfl⟩
    | _ => cases h
  | reserved =>
    cases t with
    | inspect =>
      cases kind with
      | selective selected =>
        cases h
        exact ⟨_, _, rfl, .goes _ _ rfl nofun⟩
      | _ => cases h
    | launch =>
      cases kind with
      | selective => cases h
      | _ =>
        cases h
        exact ⟨_, _, rfl, .goes _ _ rfl fun _ => rfl⟩
    | fail =>
      cases h
      exact ⟨_, _, rfl, .fail rfl⟩
    | _ => cases h
  | inspected complete missing =>
    cases t with
    | mark =>
      cases kind with
      | selective selected =>
        cases h
        exact ⟨_, _, rfl, .mark _ _ rfl (List.mem_cons_self ..)⟩
      | _ => cases h
    | fail =>
      cases h
      exact ⟨_, _, rfl, .fail rfl⟩
    | _ => cases h
  | writing left =>
    cases t with
    | land f =>
      cases kind with
      | selective selected =>
        cases left with
        | nil => cases h
        | cons g left =>
          obtain ⟨-, rfl⟩ := guard_some h
          exact ⟨_, _, rfl, .land f left rfl hcommit⟩
      | process | threaded =>
        cases left
        all_goals
          obtain ⟨-, rfl⟩ := guard_some h
          exact ⟨_, _, rfl, .land f _ rfl hcommit⟩
    | done =>
      cases kind with
      | selective selected =>
        cases left with
        | nil =>
          cases h
          exact ⟨_, _, rfl, .goes _ _ rfl fun _ => rfl⟩
        | cons => cases h
      | process | threaded =>
        cases left
        all_goals
          obtain ⟨-, rfl⟩ := guard_some h
          exact ⟨_, _, rfl, .goes _ _ rfl fun _ => rfl⟩
    | stall =>
      cases kind with
      | process =>
        cases h
        exact ⟨_, _, rfl, .goes _ _ rfl fun _ => rfl⟩
      | _ => cases h
    | fail =>
      cases h
      exact ⟨_, _, rfl, .fail rfl⟩
    | _ => cases h
  | stalled =>
    cases t with
    | launch =>
      cases kind with
      | process =>
        cases h
        exact ⟨_, _, rfl, .goes _ _ rfl fun _ => rfl⟩
      | _ => cases h
    | fail =>
      cases h
      exact ⟨_, _, rfl, .fail rfl⟩
    | _ => cases h
  | written =>
    cases t with
    | settle =>
      cases kind with
      | selective selected =>
        simp only [Node.turn] at h
        split at h
        case isTrue hshort =>
          cases h
          exact ⟨_, _, rfl, .short _ rfl (whole_of_short hk hshort)⟩
        case isFalse =>
          split at h
          case isTrue =>
            cases h
            exact ⟨_, _, rfl, .unmark rfl⟩
          case isFalse hc =>
            cases h
            exact ⟨_, _, rfl, .short _ rfl (whole_of_not_complete hk hc)⟩
      | _ =>
        cases h
        exact ⟨_, _, rfl, .unmark rfl⟩
    | fail =>
      cases h
      exact ⟨_, _, rfl, .fail rfl⟩
    | _ => cases h
  | recording =>
    cases t with
    | finish =>
      cases h
      exact ⟨_, _, rfl, .leave _ rfl⟩
    | fail =>
      cases h
      exact ⟨_, _, rfl, .fail rfl⟩
    | _ => cases h
  | ended => cases t <;> cases h

omit [DecidableEq R] [DecidableEq F] in
theorem mem_touches (h : r ∈ call.touches) : r = call.revision ∨ r = call.commit := by
  unfold Call.touches at h
  cases hk : call.kind with
  | selective =>
    rw [hk] at h
    simpa using h
  | process | threaded =>
    rw [hk] at h
    exact Or.inr (List.mem_singleton.mp h)

omit [DecidableEq R] in
/-- The kind of a call and its names stay. -/
theorem accepted_set (h : ∀ call ∈ n.calls, call.kind.accepted siblings call.revision)
    (hc : n.calls[c]? = some call) :
    ∀ x ∈ (n.goto c call st).calls, x.kind.accepted siblings x.revision := by
  intro x hx
  rcases List.mem_or_eq_of_mem_set hx with hx | rfl
  · exact h x hx
  · exact h call (List.mem_of_getElem? hc)

/-! ## Markers and files of one snapshot -/

omit [DecidableEq F] in
theorem leftover_setMarked_of_ne {b : Bool} {r' : R} (h : r ≠ r') :
    (a.setMarked r' b).leftover siblings r = a.leftover siblings r := by
  unfold Cache.leftover
  rw [show (a.setMarked r' b).marked r = a.marked r from Function.update_of_ne h ..]
  rfl

omit [DecidableEq F] in
theorem leftover_unmarked : (a.setMarked r false).leftover siblings r = false := by
  unfold Cache.leftover
  rw [show (a.setMarked r false).marked r = false from Function.update_self ..]
  rfl

theorem leftover_add_of_ne {f : F} {r' : R} (h : r ≠ r') :
    (a.add r' f).leftover siblings r = a.leftover siblings r := by
  unfold Cache.leftover Cache.whole
  rw [show (a.add r' f).present r = a.present r from Function.update_of_ne h ..]
  rfl

/-! ## At most one reservation -/

omit [DecidableEq R] [DecidableEq F] in
theorem lock_ne_of_unlocked {l : Lock} (h : n.locked l = false) (hx : call ∈ n.calls)
    (hact : call.stage.active) : call.kind.lock ≠ l := by
  intro hl
  have hfree := List.any_eq_false.mp h call hx
  rw [hact, hl, decide_eq_true rfl] at hfree
  exact hfree rfl

theorem lock_eq_or_other (l l' : Lock) : l' = l ∨ l' = l.other := by
  cases l <;> cases l' <;> simp [Lock.other]

/-- A reservation that is taken apart from the other table is the only one. -/
theorem none_active (hc : n.calls[c]? = some call) (h : n.turn siblings c call .reserve = some n')
    (hap : Apart n (.turn c .reserve)) (hx : call' ∈ n.calls) : call'.stage.active = false := by
  by_contra hact
  have hact := eq_true_of_ne_false hact
  obtain ⟨kind, revision, commit, stage⟩ := call
  cases stage with
  | waiting =>
    obtain ⟨hfree, -⟩ := Option.ite_none_left_eq_some.mp h
    rcases lock_eq_or_other kind.lock call'.kind.lock with hl | hl
    · exact lock_ne_of_unlocked (Bool.eq_false_iff.mpr hfree) hx hact hl
    · exact lock_ne_of_unlocked (hap _ hc) hx hact hl
  | _ => cases h

theorem active_of_turned (h : Turned siblings a call t a' st) (hst : st.active) :
    call.stage.active ∨ t = .reserve := by
  cases h with
  | reserve => exact Or.inr rfl
  | leave | fail => cases hst
  | goes _ _ h | mark _ _ h | land _ _ h | unmark h | short _ h => exact Or.inl h

theorem Node.OneWriter.turn (h : n.OneWriter)
    (hk : call.kind.accepted siblings call.revision) (hc : n.calls[c]? = some call)
    (hap : Apart n (.turn c t)) (ht : n.turn siblings c call t = some n') : n'.OneWriter := by
  obtain ⟨a, st, rfl, hturn⟩ := turn_cases hk ht
  -- a call beside `c` that is inside its reservation
  have hother : ∀ (i : ℕ) (x : Call R F), i ≠ c → n.calls[i]? = some x → x.stage.active →
      st.active = false := by
    intro i x hi hx hact
    by_contra hst
    rcases active_of_turned hturn (eq_true_of_ne_false hst) with hcall | rfl
    · exact hi (h i c x call hx hc hact hcall)
    · rw [none_active hc ht hap (List.mem_of_getElem? hx)] at hact
      cases hact
  intro i j x y hi hj hx hy
  rcases Table.set_cases hi with ⟨rfl, rfl⟩ | ⟨hic, hi'⟩
  · rcases Table.set_cases hj with ⟨rfl, rfl⟩ | ⟨hjc, hj'⟩
    · rfl
    · rw [hother j y hjc hj' hy] at hx
      cases hx
  · rcases Table.set_cases hj with ⟨rfl, rfl⟩ | ⟨hjc, hj'⟩
    · rw [hother i x hic hi' hx] at hy
      cases hy
    · exact h i j x y hi' hj' hx hy

/-! ## Markers -/

/-- What a marker that is left over after a turn says. -/
theorem leftover_of_turned (h : Turned siblings a call t a' st)
    (hfail : t = .fail → call.stage.owes →
      ∀ r ∈ call.touches, a.leftover siblings r = false)
    (hsettle : t = .settle → call.revision ≠ call.commit →
      a.leftover siblings call.commit = false)
    (hl : a'.leftover siblings r) :
    st.owes ∧ r ∈ call.touches ∨
      a.leftover siblings r ∧ (call.stage.owes → r ∉ call.touches) := by
  -- a call that deals with the marker of its revision
  have hnamed : t = .settle → r ≠ call.revision → a.leftover siblings r →
      r ∉ call.touches := by
    intro ht hr hl hmem
    rcases mem_touches hmem with rfl | rfl
    · exact hr rfl
    · rw [hsettle ht fun he => hr he.symm] at hl
      cases hl
  cases h with
  | reserve ho | leave _ ho => exact Or.inr ⟨hl, fun h => by rw [ho] at h; cases h⟩
  | goes _ _ _ hgoes =>
    by_cases hr : call.stage.owes ∧ r ∈ call.touches
    · exact Or.inl ⟨hgoes hr.1, hr.2⟩
    · exact Or.inr ⟨hl, fun ho hmem => hr ⟨ho, hmem⟩⟩
  | mark b left _ hmem =>
    by_cases hr : r ∈ call.touches
    · exact Or.inl ⟨rfl, hr⟩
    · have hne : r ≠ call.revision := fun he => hr (he ▸ hmem)
      rw [leftover_setMarked_of_ne hne] at hl
      exact Or.inr ⟨hl, fun _ => hr⟩
  | land f left _ hmem =>
    by_cases hr : r ∈ call.touches
    · exact Or.inl ⟨rfl, hr⟩
    · have hne : r ≠ call.commit := fun he => hr (he ▸ hmem)
      rw [leftover_add_of_ne hne] at hl
      exact Or.inr ⟨hl, fun _ => hr⟩
  | unmark =>
    by_cases hr : r = call.revision
    · subst hr
      cases leftover_unmarked.symm.trans hl
    · rw [leftover_setMarked_of_ne hr] at hl
      exact Or.inr ⟨hl, fun _ => hnamed rfl hr hl⟩
  | short _ _ hshort =>
    refine Or.inr ⟨hl, fun _ => hnamed rfl ?_ hl⟩
    rintro rfl
    rw [Cache.leftover, hshort, Bool.and_false] at hl
    cases hl
  | fail =>
    refine Or.inr ⟨hl, fun ho hmem => ?_⟩
    rw [hfail rfl ho r hmem] at hl
    cases hl

structure Inv (siblings : R → List F) (n : Node R F) : Prop where
  accepted : ∀ call ∈ n.calls, call.kind.accepted siblings call.revision
  /-- A marker that is left over has a call that wrote and has it still to remove. -/
  owed : ∀ r, n.cache.leftover siblings r →
    ∃ call ∈ n.calls, call.stage.owes ∧ r ∈ call.touches

omit [DecidableEq F] in
theorem active_of_owes (h : st.owes) : st.active := by
  cases st <;> first | rfl | cases h

omit [DecidableEq R] in
theorem Inv.settled (h : Inv siblings n) : n.Settled siblings := by
  intro hidle r
  by_contra hl
  obtain ⟨call, hcall, howes, -⟩ := h.owed r (eq_true_of_ne_false hl)
  have hact := hidle call hcall
  rw [active_of_owes howes] at hact
  cases hact

theorem Inv.turn (h : Inv siblings n) (hc : n.calls[c]? = some call)
    (hcl : Clean siblings n (.turn c t)) (ht : n.turn siblings c call t = some n') :
    Inv siblings n' := by
  obtain ⟨a, st, rfl, hturn⟩ := turn_cases (h.accepted call (List.mem_of_getElem? hc)) ht
  refine ⟨accepted_set h.accepted hc, fun r hl => ?_⟩
  have hcases : st.owes ∧ r ∈ call.touches ∨
      n.cache.leftover siblings r ∧ (call.stage.owes → r ∉ call.touches) := by
    refine leftover_of_turned hturn ?_ ?_ hl
    · rintro rfl
      exact hcl call hc
    · rintro rfl
      exact hcl call hc
  rcases hcases with ⟨howes, hmem⟩ | ⟨hl, hother⟩
  · exact ⟨_, List.mem_of_getElem? (Table.get_set_self hc), howes, hmem⟩
  · obtain ⟨x, hx, howes, hmem⟩ := h.owed r hl
    obtain ⟨i, hi⟩ := List.mem_iff_getElem?.mp hx
    have hic : i ≠ c := by
      rintro rfl
      cases hc.symm.trans hi
      exact hother howes hmem
    exact ⟨x, List.mem_of_getElem? (Table.get_set_ne hi hic), howes, hmem⟩

/-! ## Runs -/

/-- A step is a new call, or a turn. -/
theorem step_cases {e : Act R F} (h : n.step siblings e = some n') :
    (∃ kind revision commit, e = .call kind revision commit ∧
        kind.accepted siblings revision ∧
        n' = { n with calls := n.calls ++ [⟨kind, revision, commit, .waiting⟩] }) ∨
      ∃ c t call, e = .turn c t ∧ n.calls[c]? = some call ∧
        n.turn siblings c call t = some n' := by
  cases e with
  | call kind revision commit =>
    obtain ⟨hk, h⟩ := Option.ite_none_right_eq_some.mp h
    exact Or.inl ⟨kind, revision, commit, rfl, hk, (Option.some.inj h).symm⟩
  | turn c t =>
    obtain ⟨call, hc, ht⟩ := Option.bind_eq_some_iff.mp h
    exact Or.inr ⟨c, t, call, rfl, hc, ht⟩

omit [DecidableEq R] in
theorem accepted_append (h : ∀ call ∈ n.calls, call.kind.accepted siblings call.revision)
    (hk : call.kind.accepted siblings call.revision) :
    ∀ x ∈ n.calls ++ [call], x.kind.accepted siblings x.revision := by
  intro x hx
  rcases List.mem_append.mp hx with hx | hx
  · exact h x hx
  · rwa [List.mem_singleton.mp hx]

omit [DecidableEq R] [DecidableEq F] in
theorem Node.OneWriter.append (h : n.OneWriter) (hw : call.stage.active = false) :
    Node.OneWriter { n with calls := n.calls ++ [call] } := by
  intro i j x y hi hj hx hy
  rcases Table.append_cases hi with hi' | ⟨-, rfl⟩
  · rcases Table.append_cases hj with hj' | ⟨-, rfl⟩
    · exact h i j x y hi' hj' hx hy
    · cases hw.symm.trans hy
  · cases hw.symm.trans hx

theorem oneWriter_of_apart (hstart : n.calls = [])
    (h : Reach (Node.step siblings) Apart n n') : n'.OneWriter := by
  have hinv : (∀ call ∈ n'.calls, call.kind.accepted siblings call.revision) ∧
      n'.OneWriter := by
    refine h.invariant (P := fun n => (∀ call ∈ n.calls, call.kind.accepted siblings call.revision =
      true) ∧ n.OneWriter) ?_ ?_
    · exact ⟨by simp [hstart], fun i j x y hi => by simp [hstart] at hi⟩
    · rintro m e m' ⟨hk, hone⟩ hap he
      rcases step_cases he with ⟨kind, revision, commit, -, hkind, rfl⟩ | ⟨c, t, call, rfl, hc, ht⟩
      · exact ⟨accepted_append hk hkind, hone.append rfl⟩
      · have hcall := hk call (List.mem_of_getElem? hc)
        have hone' := hone.turn hcall hc hap ht
        obtain ⟨a, st, rfl, -⟩ := turn_cases hcall ht
        exact ⟨accepted_set hk hc, hone'⟩
  exact hinv.2

theorem settled_of_clean (hstart : n.calls = []) (hset : n.Settled siblings)
    (h : Reach (Node.step siblings) (Clean siblings) n n') : n'.Settled siblings := by
  have h0 : Inv siblings n := by
    refine ⟨by simp [hstart], fun r hl => ?_⟩
    rw [hset (by simp [hstart]) r] at hl
    cases hl
  refine Inv.settled (h.invariant h0 ?_)
  intro m e m' hinv hcl he
  rcases step_cases he with ⟨kind, revision, commit, -, hkind, rfl⟩ | ⟨c, t, call, rfl, hc, ht⟩
  · refine ⟨accepted_append hinv.accepted hkind, fun r hl => ?_⟩
    obtain ⟨x, hx, howes⟩ := hinv.owed r hl
    exact ⟨x, List.mem_append_left _ hx, howes⟩
  · exact hinv.turn hc hcl ht

/-- A reservation that is not taken apart from the other table is not the only one. -/
theorem apart_of_oneWriter {e : Act R F} (h : n.step siblings e = some n') (hone : n'.OneWriter) :
    Apart n e := by
  rcases step_cases h with ⟨kind, revision, commit, rfl, -, rfl⟩ | ⟨c, t, call, rfl, hc, ht⟩
  · trivial
  · cases t with
    | reserve =>
      intro call' hc'
      cases hc.symm.trans hc'
      by_contra hlocked
      obtain ⟨x, hx, hheld⟩ := List.any_eq_true.mp (eq_true_of_ne_false hlocked)
      obtain ⟨hact, -⟩ := (Bool.and_eq_true _ _).mp hheld
      obtain ⟨i, hi⟩ := List.mem_iff_getElem?.mp hx
      obtain ⟨kind, revision, commit, stage⟩ := call
      cases stage with
      | waiting =>
        obtain ⟨-, ht⟩ := Option.ite_none_left_eq_some.mp ht
        cases ht
        have hic : i ≠ c := by
          rintro rfl
          cases hc.symm.trans hi
          cases hact
        exact hic (hone i c x _ (Table.get_set_ne hi hic) (Table.get_set_self hc) hact rfl)
      | _ => cases ht
    | _ => trivial

/-- **One writer for each repository.** -/
theorem one_writer (siblings : R → List F) (cache : Cache R F)
    (h : (Node.start cache).Settled siblings) :
    (∀ n, Reach (Node.step siblings) Apart (Node.start cache) n → n.OneWriter) ∧
    (∀ n, Reach (Node.step siblings) (Clean siblings) (Node.start cache) n →
      n.Settled siblings) ∧
    ∀ (n n' : Node R F) (e : Act R F), n.step siblings e = some n' → n'.OneWriter → Apart n e :=
  ⟨fun _ hr => oneWriter_of_apart rfl hr, fun _ hr => settled_of_clean rfl h hr,
    fun _ _ _ he hone => apart_of_oneWriter he hone⟩

/-- A repository of two files that is not in the cache. -/
def fresh : Cache String String := ⟨fun _ _ => false, fun _ => false⟩

def twoFiles : String → List String := fun _ => ["a.gguf", "b.gguf"]

theorem settled_fresh : (Node.start fresh).Settled twoFiles := fun _ _ => rfl

/-- A download of `a.gguf` alone. -/
def alone : List (Act String String) :=
  [.call (.selective ["a.gguf"]) "c0" "c0", .turn 0 .reserve, .turn 0 .inspect, .turn 0 .mark,
    .turn 0 (.land "a.gguf"), .turn 0 .done, .turn 0 .settle, .turn 0 .finish]

/-- It ends, and then everything is downloaded. -/
def inTurn : List (Act String String) :=
  alone ++ [.call .process "c0" "c0", .turn 1 .reserve, .turn 1 .launch, .turn 1 (.land "b.gguf"),
    .turn 1 .done, .turn 1 .settle, .turn 1 .finish]

theorem one_writer_in_turn :
    (∃ n, Reach (Node.step twoFiles) Apart (Node.start fresh) n ∧
        n.cache.whole twoFiles "c0" = true ∧ n.OneWriter) ∧
      ∃ n, Reach (Node.step twoFiles) (Clean twoFiles) (Node.start fresh) n ∧
        n.cache.whole twoFiles "c0" = true ∧ n.Settled twoFiles := by
  have h := one_writer twoFiles fresh settled_fresh
  have hapart : (replay (Node.step twoFiles) Apart (Node.start fresh) inTurn).any
      (fun n => n.cache.whole twoFiles "c0") = true := by decide +kernel
  have hclean : (replay (Node.step twoFiles) (Clean twoFiles) (Node.start fresh) inTurn).any
      (fun n => n.cache.whole twoFiles "c0") = true := by decide +kernel
  obtain ⟨n, hn, hw⟩ := reach_any hapart
  obtain ⟨m, hm, hw'⟩ := reach_any hclean
  exact ⟨⟨n, hn, hw, h.1 n hn⟩, m, hm, hw', h.2.1 m hm⟩

/-- Everything is downloaded while `a.gguf` alone is. -/
def atOnce : List (Act String String) :=
  [.call (.selective ["a.gguf"]) "c0" "c0", .turn 0 .reserve, .turn 0 .inspect, .turn 0 .mark,
    .call .process "c0" "c0", .turn 1 .reserve, .turn 1 .launch]

/-- The second download is cancelled when its last file has landed. -/
def lateCancel : List (Act String String) :=
  alone ++ [.call .process "c0" "c0", .turn 1 .reserve, .turn 1 .launch, .turn 1 (.land "b.gguf"),
    .turn 1 .fail]

theorem two_writers :
    (∃ n, Reach (Node.step twoFiles) Free (Node.start fresh) n ∧ ¬n.OneWriter) ∧
      ∃ n, Reach (Node.step twoFiles) Free (Node.start fresh) n ∧ ¬n.Settled twoFiles := by
  have htwo : (replay (Node.step twoFiles) Free (Node.start fresh) atOnce).any (fun n =>
      decide (n.calls.map (·.stage) = [.writing ["a.gguf"], .writing []])) = true := by
    decide +kernel
  have hleft : (replay (Node.step twoFiles) Free (Node.start fresh) lateCancel).any (fun n =>
      n.calls.all (fun call => !call.stage.active) && n.cache.leftover twoFiles "c0") = true := by
    decide +kernel
  constructor
  · obtain ⟨n, hn, hstages⟩ := reach_any htwo
    have hstages := of_decide_eq_true hstages
    have h0 : (n.calls.map (·.stage))[0]? = some (.writing ["a.gguf"]) := by rw [hstages]; rfl
    have h1 : (n.calls.map (·.stage))[1]? = some (.writing []) := by rw [hstages]; rfl
    obtain ⟨x, hx, hxs⟩ := Option.map_eq_some_iff.mp (List.getElem?_map.symm.trans h0)
    obtain ⟨y, hy, hys⟩ := Option.map_eq_some_iff.mp (List.getElem?_map.symm.trans h1)
    refine ⟨n, hn, fun hone => ?_⟩
    cases hone 0 1 x y hx hy (by rw [hxs]; rfl) (by rw [hys]; rfl)
  · obtain ⟨n, hn, hl⟩ := reach_any hleft
    obtain ⟨hidle, hl⟩ := (Bool.and_eq_true _ _).mp hl
    refine ⟨n, hn, fun hset => ?_⟩
    rw [hset (fun call hcall => by simpa using List.all_eq_true.mp hidle call hcall) "c0"] at hl
    cases hl

end SparkDeck.Hub
