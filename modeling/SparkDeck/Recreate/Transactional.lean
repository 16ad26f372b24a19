import Mathlib.Data.List.Nodup
import SparkDeck.Recreate.Replace

/-!
# When recreating a container is transactional

The containers are followed as a `scene`: those that have nothing to do with the call, the original
under whatever name it bears, and the replacement if it is there. Each part of the program is run
from a scene once (`detach_run`, `replace_run`, `rollback_run`), and `transactional_iff` puts them
together. `stranded_rename` is a call after which the original is stopped.
-/

namespace SparkDeck.Recreate

open Effect

variable {κ : Type} {l₁ l₂ : List (Container κ)} {b orig : Container κ} {r : Option (Container κ)}
  {req : Request κ} {calls : Calls} {cl : Option Claim} {d : List String} {br : Bool} {config : κ}

/-- The containers: the original, and the replacement. -/
def scene (l₁ l₂ : List (Container κ)) (b : Container κ) (r : Option (Container κ)) :
    List (Container κ) := l₁ ++ b :: (l₂ ++ r.toList)

/-- What stands around the original. -/
structure Around (req : Request κ) (orig : Container κ) (l₁ l₂ : List (Container κ)) : Prop where
  ids : ∀ c ∈ l₁ ++ l₂, c.id ≠ orig.id
  fresh : ∀ c ∈ l₁ ++ l₂, c.id ≠ req.fresh
  named : ∀ c ∈ l₁ ++ l₂, c.name ≠ req.name
  backup : ∀ c ∈ l₁ ++ l₂, c.name ≠ req.backup
  id : orig.id ≠ req.fresh
  name : orig.name = req.name
  names : req.backup ≠ req.name

/-- The original and the replacement are what they are taken for. -/
structure Cast (req : Request κ) (orig b : Container κ) (r : Option (Container κ)) : Prop where
  id : b.id = orig.id
  replacement : ∀ c ∈ r, c.id = req.fresh ∧ c.name = req.name

/-! ## Scenes -/

variable {l : List (Container κ)}

theorem map_apart {i : ℕ} {f : Container κ → Container κ} (h : ∀ c ∈ l, c.id ≠ i) :
    (l.map fun c => if c.id = i then f c else c) = l := by
  induction l with
  | nil => rfl
  | cons c l ih =>
    rw [List.map_cons, if_neg (h c List.mem_cons_self),
      ih fun x hx => h x (List.mem_cons_of_mem c hx)]

theorem both {P : Container κ → Prop} (hp : ∀ c ∈ l₁ ++ l₂, P c) :
    (∀ c ∈ l₁, P c) ∧ ∀ c ∈ l₂, P c :=
  ⟨fun c hc => hp c (List.mem_append.mpr (Or.inl hc)),
    fun c hc => hp c (List.mem_append.mpr (Or.inr hc))⟩

variable (cl d br) in
/-- The original is changed. -/
theorem modify_original (ha : Around req orig l₁ l₂) (hc : Cast req orig b r)
    (f : Container κ → Container κ) :
    (⟨scene l₁ l₂ b r, cl, d, br⟩ : World κ).modify orig.id f = ⟨scene l₁ l₂ (f b) r, cl, d, br⟩ := by
  obtain ⟨h₁, h₂⟩ := both ha.ids
  have hr : ∀ c ∈ r.toList, c.id ≠ orig.id := by
    intro c hm he
    have hfresh := (hc.replacement c (Option.mem_toList.mp hm)).1
    exact ha.id (he.symm.trans hfresh)
  unfold World.modify scene
  rw [List.map_append, List.map_cons, List.map_append, map_apart h₁, map_apart h₂, map_apart hr,
    if_pos hc.id]

variable (cl d br) in
/-- The replacement is changed. -/
theorem modify_replacement (ha : Around req orig l₁ l₂) {c : Container κ}
    (hc : Cast req orig b (some c)) (f : Container κ → Container κ) :
    (⟨scene l₁ l₂ b (some c), cl, d, br⟩ : World κ).modify req.fresh f =
      ⟨scene l₁ l₂ b (some (f c)), cl, d, br⟩ := by
  obtain ⟨h₁, h₂⟩ := both ha.fresh
  have hb : b.id ≠ req.fresh := fun he => ha.id (hc.id.symm.trans he)
  unfold World.modify scene
  rw [List.map_append, List.map_cons, List.map_append, map_apart h₁, map_apart h₂, if_neg hb,
    Option.toList_some, List.map_cons, if_pos (hc.replacement c rfl).1]
  rfl

theorem mem_scene {c : Container κ} : c ∈ scene l₁ l₂ b r ↔ c ∈ l₁ ++ l₂ ∨ c = b ∨ c ∈ r := by
  unfold scene
  simp only [List.mem_append, List.mem_cons, Option.mem_toList]
  tauto

variable {n : String}

/-- Whether a name is taken. -/
theorem named_iff (h : ∀ c ∈ l₁ ++ l₂, c.name ≠ n) :
    (⟨scene l₁ l₂ b r, cl, d, br⟩ : World κ).named n ↔
      b.name = n ∨ ∃ c ∈ r, c.name = n := by
  unfold World.named
  rw [List.any_eq_true]
  constructor
  · rintro ⟨c, hc, hn⟩
    rw [decide_eq_true_eq] at hn
    rcases mem_scene.mp hc with hc | rfl | hc
    · exact absurd hn (h c hc)
    · exact Or.inl hn
    · exact Or.inr ⟨c, hc, hn⟩
  · rintro (hn | ⟨c, hc, hn⟩)
    · exact ⟨b, mem_scene.mpr (Or.inr (Or.inl rfl)), decide_eq_true hn⟩
    · exact ⟨c, mem_scene.mpr (Or.inr (Or.inr hc)), decide_eq_true hn⟩

theorem find_apart {l l' : List (Container κ)} (h : ∀ c ∈ l, c.name ≠ n) :
    (l ++ l').find? (fun c => decide (c.name = n)) = l'.find? fun c => decide (c.name = n) := by
  induction l with
  | nil => rfl
  | cons c l ih =>
    rw [List.cons_append, List.find?_cons, decide_eq_false (h c List.mem_cons_self)]
    exact ih fun x hx => h x (List.mem_cons_of_mem c hx)

variable (l₁ l₂ r) in
theorem find_original (h : ∀ c ∈ l₁ ++ l₂, c.name ≠ n) (hb : b.name = n) :
    (scene l₁ l₂ b r).find? (fun c => decide (c.name = n)) = some b := by
  unfold scene
  rw [find_apart (both h).1, List.find?_cons, decide_eq_true hb]

theorem find_replacement {c : Container κ} (h : ∀ c ∈ l₁ ++ l₂, c.name ≠ n) (hb : b.name ≠ n)
    (hc : c.name = n) : (scene l₁ l₂ b (some c)).find? (fun c => decide (c.name = n)) = some c := by
  unfold scene
  rw [find_apart (both h).1, List.find?_cons, decide_eq_false hb]
  rw [find_apart (both h).2, Option.toList_some, List.find?_cons, decide_eq_true hc]

theorem filter_apart {i : ℕ} (h : ∀ c ∈ l, c.id ≠ i) : (l.filter fun c => decide (c.id ≠ i)) = l :=
  List.filter_eq_self.mpr fun c hc => decide_eq_true (h c hc)

theorem remove_original (ha : Around req orig l₁ l₂) {c : Container κ}
    (hc : Cast req orig b (some c)) :
    ((scene l₁ l₂ b (some c)).filter fun c => decide (c.id ≠ orig.id)) = l₁ ++ (l₂ ++ [c]) := by
  obtain ⟨h₁, h₂⟩ := both ha.ids
  have hr : ∀ x ∈ [c], x.id ≠ orig.id := by
    intro x hx he
    rw [List.mem_singleton.mp hx, (hc.replacement c rfl).1] at he
    exact ha.id he.symm
  have hb : decide (b.id ≠ orig.id) = false := decide_eq_false fun hne => hne hc.id
  unfold scene
  rw [List.filter_append, List.filter_cons, hb, List.filter_append, filter_apart h₁,
    filter_apart h₂, Option.toList_some, filter_apart hr]
  rfl

theorem remove_replacement (ha : Around req orig l₁ l₂) {c : Container κ}
    (hc : Cast req orig b (some c)) :
    ((scene l₁ l₂ b (some c)).filter fun c => decide (c.id ≠ req.fresh)) = scene l₁ l₂ b none := by
  obtain ⟨h₁, h₂⟩ := both ha.fresh
  have hb : decide (b.id ≠ req.fresh) :=
    decide_eq_true fun he => ha.id (hc.id.symm.trans he)
  have hr : ([c].filter fun c => decide (c.id ≠ req.fresh)) = [] := by
    rw [List.filter_cons, decide_eq_false fun hne => hne (hc.replacement c rfl).1]
    rfl
  unfold scene
  rw [List.filter_append, List.filter_cons, hb, List.filter_append, filter_apart h₁,
    filter_apart h₂, Option.toList_some, hr]
  rfl

/-! ## Calls -/

variable {f : World κ → World κ}

theorem call_ok (w : World κ) : call true f w = .ok () (f w) := rfl

theorem call_fails (w : World κ) : call false f w = .error () w := rfl

variable {w w' : World κ} {m : Op κ Unit}

theorem attempt_ok (h : m w = .ok () w') :
    attempt m w = .ok () w' := tryCatch_ok h

theorem attempt_fails (h : m w = .error () w') :
    attempt m w = .ok () { w' with broken := true } := tryCatch_error h

theorem require_ok {α : Type} {m : Op κ α} {a : α} (h : m w = .ok a w') :
    require m w = .ok a w' := tryCatch_ok h

theorem require_fails {α : Type} {m : Op κ α} (h : m w = .error () w') :
    require m w = .error () { w' with broken := true } := tryCatch_error h

/-! ## The networks -/

variable (calls cl d br) in
/-- The original leaves its networks up to the first call that fails. -/
theorem detach_run (ha : Around req orig l₁ l₂) (k : ℕ) (nets : List String)
    (hc : Cast req orig b r) (hb : b.networks = nets) :
    ∃ n ≤ nets.length, (∀ j < n, calls.disconnect (k + j)) ∧
      (n < nets.length → calls.disconnect (k + n) = false) ∧
      detach calls orig.id k nets ⟨scene l₁ l₂ b r, cl, d, br⟩ =
        if n = nets.length then
          .ok () ⟨scene l₁ l₂ { b with networks := nets.drop n } r, cl, d ++ nets.take n, br⟩
        else
          .error () ⟨scene l₁ l₂ { b with networks := nets.drop n } r, cl, d ++ nets.take n, br⟩ := by
  induction nets generalizing k b d with
  | nil =>
    refine ⟨0, Nat.le_refl 0, fun j hj => absurd hj (Nat.not_lt_zero j),
      fun h0 => absurd h0 (Nat.lt_irrefl 0), ?_⟩
    have hsame : { b with networks := ([] : List String).drop 0 } = b := by
      rw [List.drop_nil, ← hb]
    rw [if_pos (show 0 = ([] : List String).length from rfl), hsame, List.take_nil,
      List.append_nil]
    rfl
  | cons network rest ih =>
    cases hd : calls.disconnect k with
    | false =>
      refine ⟨0, Nat.zero_le _, fun j hj => absurd hj (Nat.not_lt_zero j), fun _ => hd, ?_⟩
      have hsame : { b with networks := (network :: rest).drop 0 } = b := by
        rw [List.drop_zero, ← hb]
      rw [if_neg (by simp), hsame, List.take_zero, List.append_nil, detach, hd]
      exact bind_error rfl
    | true =>
      have hcall : disconnect true orig.id network ⟨scene l₁ l₂ b r, cl, d, br⟩ =
          .ok () ⟨scene l₁ l₂ { b with networks := rest } r, cl, d, br⟩ := by
        have hm := modify_original cl d br ha hc
          fun c => { c with networks := c.networks.erase network }
        rw [disconnect, call, if_pos rfl, hm, hb, List.erase_cons_head]
      obtain ⟨n, hn, htrue, hfalse, hrun⟩ := ih (b := { b with networks := rest })
        (d := d ++ [network]) (k + 1) ⟨hc.id, hc.replacement⟩ rfl
      refine ⟨n + 1, Nat.succ_le_succ hn, fun j hj => ?_, fun hlt => ?_, ?_⟩
      · cases j with
        | zero => exact hd
        | succ j =>
          have hj' := htrue j (Nat.lt_of_succ_lt_succ hj)
          rw [show k + (j + 1) = k + 1 + j by omega]
          exact hj'
      · have hlt' := hfalse (Nat.lt_of_succ_lt_succ hlt)
        rw [show k + (n + 1) = k + 1 + n by omega]
        exact hlt'
      · rw [detach, hd]
        refine (bind_ok hcall).trans ((bind_ok (call_ok _)).trans (hrun.trans ?_))
        simp only [List.length_cons, Nat.add_right_cancel_iff, List.drop_succ_cons,
          List.take_succ_cons, List.append_assoc, List.singleton_append]

theorem left_eq {n m : ℕ} (hm : m ≤ n) (htrue : ∀ j < m, calls.disconnect j)
    (hfalse : m < n → calls.disconnect m = false) : calls.left n = m := by
  obtain ⟨e, rfl⟩ := Nat.exists_eq_add_of_le hm
  have hpos : ∀ j ∈ List.range m, calls.disconnect j := fun j hj =>
    htrue j (List.mem_range.mp hj)
  unfold Calls.left
  rw [List.range_add, List.takeWhile_append_of_pos hpos, List.length_append, List.length_range]
  cases e with
  | zero => rfl
  | succ e =>
    rw [List.range_succ_eq_map, List.map_cons, List.takeWhile_cons,
      if_neg (by rw [Nat.add_zero, hfalse (by omega)]; exact Bool.false_ne_true)]
    rfl

variable (calls cl d br) in
/-- The original joins the networks it left; a failure is noted. -/
theorem reattach_run (ha : Around req orig l₁ l₂) (k : ℕ) (nets : List String)
    (hc : Cast req orig b r) :
    ∃ joined br', reattach calls orig.id k nets ⟨scene l₁ l₂ b r, cl, d, br⟩ =
        .ok () ⟨scene l₁ l₂ { b with networks := joined } r, cl, d, br'⟩ ∧
      ((∀ j < nets.length, calls.connect (k + j)) ∧ br' = br ∧
        joined = b.networks ++ nets ∨
       ¬(∀ j < nets.length, calls.connect (k + j)) ∧ br') := by
  induction nets generalizing k b br with
  | nil =>
    refine ⟨b.networks, br, rfl, Or.inl ⟨fun j hj => absurd hj (Nat.not_lt_zero j), rfl, ?_⟩⟩
    rw [List.append_nil]
  | cons network rest ih =>
    have hall : (∀ j < (network :: rest).length, calls.connect (k + j)) ↔
        calls.connect k ∧ ∀ j < rest.length, calls.connect (k + 1 + j) := by
      constructor
      · intro h
        refine ⟨h 0 (Nat.succ_pos _), fun j hj => ?_⟩
        rw [show k + 1 + j = k + (j + 1) by omega]
        exact h (j + 1) (Nat.succ_lt_succ hj)
      · rintro ⟨h0, hs⟩ j hj
        cases j with
        | zero => exact h0
        | succ j =>
          rw [show k + (j + 1) = k + 1 + j by omega]
          exact hs j (Nat.lt_of_succ_lt_succ hj)
    cases hconn : calls.connect k with
    | true =>
      have hcall : connect true orig.id network ⟨scene l₁ l₂ b r, cl, d, br⟩ =
          .ok () ⟨scene l₁ l₂ { b with networks := b.networks ++ [network] } r, cl, d, br⟩ := by
        have hm := modify_original cl d br ha hc
          fun c => { c with networks := c.networks ++ [network] }
        rw [connect, call, if_pos rfl, hm]
      obtain ⟨joined, br', hrun, hcases⟩ := ih (b := { b with networks := b.networks ++ [network] })
        br (k + 1) ⟨hc.id, hc.replacement⟩
      refine ⟨joined, br', ?_, ?_⟩
      · rw [reattach, hconn]
        exact (bind_ok (attempt_ok hcall)).trans hrun
      · rcases hcases with ⟨hs, hbr, hj⟩ | ⟨hs, hbr⟩
        · refine Or.inl ⟨hall.mpr ⟨hconn, hs⟩, hbr, ?_⟩
          rw [hj, List.append_assoc]
          rfl
        · exact Or.inr ⟨fun h => hs (hall.mp h).2, hbr⟩
    | false =>
      obtain ⟨joined, br', hrun, hcases⟩ := ih (b := b) true (k + 1) hc
      have hno : ¬∀ j < (network :: rest).length, calls.connect (k + j) := by
        intro h
        rw [(hall.mp h).1] at hconn
        cases hconn
      refine ⟨joined, br', ?_, Or.inr ⟨hno, ?_⟩⟩
      · have hcall : attempt (connect false orig.id network) ⟨scene l₁ l₂ b r, cl, d, br⟩ =
            .ok () ⟨scene l₁ l₂ b r, cl, d, true⟩ := attempt_fails (call_fails _)
        rw [reattach, hconn]
        exact (bind_ok hcall).trans hrun
      · rcases hcases with ⟨-, hbr, -⟩ | ⟨-, hbr⟩
        · exact hbr
        · exact hbr

/-! ## The protected region -/

theorem onlyIf_ok {c : Bool} (h : c = true → m w = .ok () w') (h' : c = false → w = w') :
    onlyIf c m w = .ok () w' := by
  cases c with
  | true => exact h rfl
  | false =>
    rw [← h' rfl]
    rfl

/-- What the claim has become when it is confirmed. -/
def confirmed (managed : Bool) (cl : Option Claim) : Option Claim :=
  if managed then some .active else cl

theorem confirm_run (managed : Bool) (cs : List (Container κ)) :
    confirm managed ⟨cs, cl, d, br⟩ = .ok () ⟨cs, confirmed managed cl, d, br⟩ := by
  cases managed <;> rfl

variable (calls cl) in
/-- The original, once it is the backup, leaves its networks. -/
theorem region_detach (ha : Around req orig l₁ l₂) (hc : Cast req orig b none)
    (hb : b.networks = orig.networks) :
    onlyIf (preserves req.mode orig.networks) (detach calls orig.id 0 orig.networks)
        ⟨scene l₁ l₂ b none, cl, [], false⟩ =
      let w : World κ := ⟨scene l₁ l₂
        { b with networks := orig.networks.drop (leaves calls req orig) } none, cl,
        orig.networks.take (leaves calls req orig), false⟩
      if !preserves req.mode orig.networks ||
          decide (calls.left orig.networks.length = orig.networks.length)
      then .ok () w else .error () w := by
  unfold leaves
  cases hp : preserves req.mode orig.networks with
  | false =>
    have hsame : { b with networks := orig.networks.drop 0 } = b := by
      rw [List.drop_zero, ← hb]
    rw [if_neg Bool.false_ne_true, hsame, List.take_zero]
    rfl
  | true =>
    obtain ⟨n, hn, htrue, hfalse, hrun⟩ := detach_run calls cl [] false ha 0 orig.networks hc hb
    have hleft : calls.left orig.networks.length = n :=
      left_eq hn (fun j hj => Nat.zero_add j ▸ htrue j hj) fun hlt => Nat.zero_add n ▸ hfalse hlt
    rw [if_pos rfl, hleft]
    refine hrun.trans ?_
    rw [List.nil_append]
    by_cases hfull : n = orig.networks.length
    · rw [if_pos hfull, if_pos (by simp [hfull])]
    · rw [if_neg hfull, if_neg (by simp [hfull])]

/-- The backup, from the first network that it could not leave on. -/
def left (calls : Calls) (req : Request κ) (orig b : Container κ) : Container κ :=
  { b with networks := orig.networks.drop (leaves calls req orig) }

variable (cl d) in
/-- The part of the region that follows the creation of the replacement. -/
theorem created_run (ha : Around req orig l₁ l₂) {c : Container κ}
    (hc : Cast req orig b (some c)) (hcreates : creates calls req orig) :
    (completes calls req orig ∧ ∃ c', (do
        call calls.find id
        onlyIf orig.status.isUp (start calls.start req.fresh)
        call calls.refresh id
        onlyIf orig.status.isUp (call (observed calls.observations) id)
        call calls.summary id
        confirm req.managed
        remove calls.remove orig.id : Op κ Unit) ⟨scene l₁ l₂ b (some c), cl, d, false⟩ =
          .ok () ⟨l₁ ++ (l₂ ++ [c']), confirmed req.managed cl, d, false⟩ ∧
        c'.id = c.id ∧ c'.name = c.name ∧ c'.config = c.config ∧
        (orig.status.isUp → c'.status = .running)) ∨
    (completes calls req orig = false ∧ ∃ c' cl', (do
        call calls.find id
        onlyIf orig.status.isUp (start calls.start req.fresh)
        call calls.refresh id
        onlyIf orig.status.isUp (call (observed calls.observations) id)
        call calls.summary id
        confirm req.managed
        remove calls.remove orig.id : Op κ Unit) ⟨scene l₁ l₂ b (some c), cl, d, false⟩ =
          .error () ⟨scene l₁ l₂ b (some c'), cl', d, false⟩ ∧
        Cast req orig b (some c') ∧ (req.managed = false → cl' = cl)) := by
  unfold completes
  rw [hcreates]
  cases hfind : calls.find with
  | false => exact Or.inr ⟨by simp, c, cl, bind_error (call_fails _), hc, fun _ => rfl⟩
  | true =>
    -- The replacement is started if the original ran.
    have hstart : (orig.status.isUp = true ∧ calls.start = false ∧
        onlyIf orig.status.isUp (start calls.start req.fresh) ⟨scene l₁ l₂ b (some c), cl, d, false⟩ =
          .error () ⟨scene l₁ l₂ b (some c), cl, d, false⟩) ∨
        ((!orig.status.isUp || calls.start) ∧ ∃ c',
          onlyIf orig.status.isUp (start calls.start req.fresh)
              ⟨scene l₁ l₂ b (some c), cl, d, false⟩ =
            .ok () ⟨scene l₁ l₂ b (some c'), cl, d, false⟩ ∧
          c'.id = c.id ∧ c'.name = c.name ∧ c'.config = c.config ∧
          (orig.status.isUp → c'.status = .running)) := by
      cases hup : orig.status.isUp with
      | false => exact Or.inr ⟨rfl, c, rfl, rfl, rfl, rfl, nofun⟩
      | true =>
        cases hs : calls.start with
        | false => exact Or.inl ⟨rfl, rfl, rfl⟩
        | true =>
          refine Or.inr ⟨rfl, { c with status := .running }, ?_, rfl, rfl, rfl, fun _ => rfl⟩
          have hm := modify_replacement cl d false ha hc
            fun c => { c with status := .running }
          rw [onlyIf, if_pos rfl, start, call, if_pos rfl, hm]
    rcases hstart with ⟨hup, hs, hrun⟩ | ⟨hs, c', hrun, hid, hname, hconf, hstatus⟩
    · refine Or.inr ⟨by simp [hup, hs], c, cl, ?_, hc, fun _ => rfl⟩
      exact (bind_ok (call_ok _)).trans (bind_error hrun)
    · have hc' : Cast req orig b (some c') := by
        refine ⟨hc.id, fun x hx => ?_⟩
        cases hx
        have hold := hc.replacement c rfl
        exact ⟨hid.trans hold.1, hname.trans hold.2⟩
      rw [hs]
      cases hrefresh : calls.refresh with
      | false =>
        refine Or.inr ⟨by simp, c', cl, ?_, hc', fun _ => rfl⟩
        exact (bind_ok (call_ok _)).trans ((bind_ok hrun).trans (bind_error (call_fails _)))
      | true =>
        cases hobs : (!orig.status.isUp || observed calls.observations) with
        | false =>
          rw [Bool.or_eq_false_iff, Bool.not_eq_false'] at hobs
          refine Or.inr ⟨by simp, c', cl, ?_, hc', fun _ => rfl⟩
          refine (bind_ok (call_ok _)).trans ((bind_ok hrun).trans ((bind_ok (call_ok _)).trans ?_))
          have hwatch : onlyIf true (call false id) ⟨scene l₁ l₂ b (some c'), cl, d, false⟩ =
              .error () ⟨scene l₁ l₂ b (some c'), cl, d, false⟩ := rfl
          rw [hobs.1, hobs.2]
          exact bind_error hwatch
        | true =>
          have hobserve : onlyIf orig.status.isUp (call (observed calls.observations) id)
              ⟨scene l₁ l₂ b (some c'), cl, d, false⟩ =
              .ok () ⟨scene l₁ l₂ b (some c'), cl, d, false⟩ := by
            refine onlyIf_ok (fun hup => ?_) fun _ => rfl
            rw [hup, Bool.not_true, Bool.false_or] at hobs
            rw [hobs]
            rfl
          cases hsum : calls.summary with
          | false =>
            refine Or.inr ⟨by simp, c', cl, ?_, hc', fun _ => rfl⟩
            exact (bind_ok (call_ok _)).trans ((bind_ok hrun).trans
              ((bind_ok (call_ok _)).trans ((bind_ok hobserve).trans (bind_error (call_fails _)))))
          | true =>
            have hlead : ∀ (m : Op κ Unit), (do
                call true id
                onlyIf orig.status.isUp (start calls.start req.fresh)
                call true id
                onlyIf orig.status.isUp (call (observed calls.observations) id)
                call true id
                confirm req.managed
                m : Op κ Unit) ⟨scene l₁ l₂ b (some c), cl, d, false⟩ =
                m ⟨scene l₁ l₂ b (some c'), confirmed req.managed cl, d, false⟩ := fun m =>
              (bind_ok (call_ok _)).trans ((bind_ok hrun).trans ((bind_ok (call_ok _)).trans
                ((bind_ok hobserve).trans ((bind_ok (call_ok _)).trans
                  (bind_ok (confirm_run req.managed _))))))
            cases hrem : calls.remove with
            | false =>
              refine Or.inr ⟨by simp, c', confirmed req.managed cl, (hlead _).trans (call_fails _),
                hc', fun hm => ?_⟩
              rw [hm]
              rfl
            | true =>
              refine Or.inl ⟨by simp, c', (hlead _).trans ?_, hid, hname, hconf, hstatus⟩
              rw [remove, call, if_pos rfl, remove_original ha hc']

variable (calls cl config) in
/-- **The protected region**: it ends with the replacement, or leaves the backup to the handler. -/
theorem replace_run (ha : Around req orig l₁ l₂) (hc : Cast req orig b none)
    (hname : b.name = req.backup) (hb : b.networks = orig.networks) :
    (completes calls req orig ∧ ∃ c, replace calls req orig config
        ⟨scene l₁ l₂ b none, cl, [], false⟩ =
          .ok () ⟨l₁ ++ (l₂ ++ [c]), confirmed req.managed cl,
            orig.networks.take (leaves calls req orig), false⟩ ∧
        c.id = req.fresh ∧ c.name = req.name ∧ c.config = config ∧
        (orig.status.isUp → c.status = .running)) ∨
    (completes calls req orig = false ∧ ∃ r cl', replace calls req orig config
        ⟨scene l₁ l₂ b none, cl, [], false⟩ =
          .error () ⟨scene l₁ l₂ (left calls req orig b) r, cl',
            orig.networks.take (leaves calls req orig), false⟩ ∧
        Cast req orig b r ∧ r.isSome = creates calls req orig ∧
        (req.managed = false → cl' = cl)) := by
  have hdetach := region_detach calls cl ha hc hb
  unfold replace
  cases hleft : (!preserves req.mode orig.networks ||
      decide (calls.left orig.networks.length = orig.networks.length)) with
  | false =>
    rw [hleft, if_neg Bool.false_ne_true] at hdetach
    have hno : creates calls req orig = false := by
      rw [creates, hleft]
      rfl
    refine Or.inr ⟨by simp [completes, hno], none, cl, bind_error hdetach, hc, ?_, fun _ => rfl⟩
    rw [hno]
    rfl
  | true =>
    rw [hleft, if_pos rfl] at hdetach
    have hfree : (⟨scene l₁ l₂ (left calls req orig b) none, cl,
        orig.networks.take (leaves calls req orig), false⟩ : World κ).named req.name = false := by
      rw [← Bool.not_eq_true, named_iff ha.named]
      rintro (he | ⟨c, hm, -⟩)
      · exact ha.names (hname.symm.trans he)
      · cases hm
    have hcreate : create calls.create ⟨req.fresh, req.name, config, .created, orig.networks⟩
        ⟨scene l₁ l₂ (left calls req orig b) none, cl,
          orig.networks.take (leaves calls req orig), false⟩ =
        call calls.create (fun w => { w with containers := w.containers ++
          [⟨req.fresh, req.name, config, .created, orig.networks⟩] })
        ⟨scene l₁ l₂ (left calls req orig b) none, cl,
          orig.networks.take (leaves calls req orig), false⟩ := by
      rw [create, hfree, Bool.not_false, Bool.and_true]
    cases hcr : calls.create with
    | false =>
      have hno : creates calls req orig = false := by
        rw [creates, hcr, Bool.and_false]
      rw [hcr] at hcreate
      refine Or.inr ⟨by simp [completes, hno], none, cl,
        (bind_ok hdetach).trans (bind_error hcreate), hc, ?_, fun _ => rfl⟩
      rw [hno]
      rfl
    | true =>
      have hyes : creates calls req orig := by
        rw [creates, hleft, hcr]
        rfl
      rw [hcr] at hcreate
      have hscene : scene l₁ l₂ (left calls req orig b) none ++
          [⟨req.fresh, req.name, config, .created, orig.networks⟩] =
          scene l₁ l₂ (left calls req orig b)
            (some ⟨req.fresh, req.name, config, .created, orig.networks⟩) := by
        unfold scene
        rw [Option.toList_none, Option.toList_some, List.append_nil, List.append_assoc,
          List.cons_append]
      rw [call_ok] at hcreate
      rw [hscene] at hcreate
      have hcast : Cast req orig (left calls req orig b)
          (some ⟨req.fresh, req.name, config, .created, orig.networks⟩) := by
        refine ⟨hc.id, fun x hx => ?_⟩
        cases hx
        exact ⟨rfl, rfl⟩
      rcases created_run cl (orig.networks.take (leaves calls req orig)) ha hcast hyes
        with ⟨hcomp, c', hrun, hid, hn, hconf, hstatus⟩ | ⟨hcomp, c', cl', hrun, hcast', hm⟩
      · exact Or.inl ⟨hcomp, c', (bind_ok hdetach).trans ((bind_ok hcreate).trans hrun), hid, hn,
          hconf, hstatus⟩
      · exact Or.inr ⟨hcomp, some c', cl', (bind_ok hdetach).trans ((bind_ok hcreate).trans hrun),
          ⟨hc.id, hcast'.replacement⟩, hyes.symm, hm⟩

/-! ## The handler -/

variable (calls cl d) in
/-- What bears the name is removed, or the failure is noted. -/
theorem discard_run (ha : Around req orig l₁ l₂) (hc : Cast req orig b r)
    (hname : b.name = req.backup) :
    ((r.isNone || calls.lookup && calls.discard) ∧
      discard calls req.name ⟨scene l₁ l₂ b r, cl, d, false⟩ =
        .ok () ⟨scene l₁ l₂ b none, cl, d, false⟩) ∨
    ((r.isNone || calls.lookup && calls.discard) = false ∧ r.isSome = true ∧
      discard calls req.name ⟨scene l₁ l₂ b r, cl, d, false⟩ =
        .ok () ⟨scene l₁ l₂ b r, cl, d, true⟩) := by
  have hne : b.name ≠ req.name := fun he => ha.names (hname.symm.trans he)
  cases r with
  | none =>
    refine Or.inl ⟨rfl, ?_⟩
    have hfree : (⟨scene l₁ l₂ b none, cl, d, false⟩ : World κ).named req.name = false := by
      rw [← Bool.not_eq_true, named_iff ha.named]
      rintro (he | ⟨c, hm, -⟩)
      · exact hne he
      · cases hm
    rw [discard, hfree]
    rfl
  | some c =>
    obtain ⟨hid, hn⟩ := hc.replacement c rfl
    have htaken : (⟨scene l₁ l₂ b (some c), cl, d, false⟩ : World κ).named req.name :=
      (named_iff ha.named).mpr (Or.inr ⟨c, rfl, hn⟩)
    have hfind := find_replacement (b := b) ha.named hne hn
    rw [discard, htaken, if_pos rfl]
    cases hl : calls.lookup with
    | false =>
      have hlookup : lookup false req.name ⟨scene l₁ l₂ b (some c), cl, d, false⟩ =
          .error () ⟨scene l₁ l₂ b (some c), cl, d, false⟩ := by
        rw [lookup]
        rw [hfind]
        rfl
      exact Or.inr ⟨rfl, rfl, attempt_fails (bind_error hlookup)⟩
    | true =>
      have hlookup : lookup true req.name ⟨scene l₁ l₂ b (some c), cl, d, false⟩ =
          .ok c ⟨scene l₁ l₂ b (some c), cl, d, false⟩ := by
        rw [lookup]
        rw [hfind]
        rfl
      cases hdis : calls.discard with
      | false =>
        have hrem : (do
            let c ← lookup true req.name
            remove false c.id : Op κ Unit) ⟨scene l₁ l₂ b (some c), cl, d, false⟩ =
            .error () ⟨scene l₁ l₂ b (some c), cl, d, false⟩ :=
          (bind_ok hlookup).trans (call_fails _)
        exact Or.inr ⟨rfl, rfl, attempt_fails hrem⟩
      | true =>
        refine Or.inl ⟨rfl, attempt_ok ((bind_ok hlookup).trans ?_)⟩
        rw [hid, remove, call_ok, remove_replacement ha hc]

variable (b r cl d br) in
/-- The original is found under the name of the backup. -/
theorem lookup_backup (ha : Around req orig l₁ l₂) (hname : b.name = req.backup) (ok : Bool) :
    lookup ok req.backup ⟨scene l₁ l₂ b r, cl, d, br⟩ =
      if ok then .ok b ⟨scene l₁ l₂ b r, cl, d, br⟩
      else .error () ⟨scene l₁ l₂ b r, cl, d, br⟩ := by
  have hfind := find_original l₁ l₂ r ha.backup hname
  rw [lookup]
  rw [hfind]

theorem kept_scene (hc : Cast req orig b r) (hname : b.name = req.name ∨ b.name = req.backup) :
    Kept req orig ⟨scene l₁ l₂ b r, cl, d, br⟩ :=
  ⟨b, mem_scene.mpr (Or.inr (Or.inl rfl)), hc.id, hname⟩

/-- The handler, once the original bears its name again. -/
def settle (calls : Calls) (req : Request κ) (up : Bool) (orig : Container κ) (d : List String) :
    Op κ Unit := do
  reattach calls orig.id 0 d
  onlyIf up (attempt (start calls.restart orig.id))
  confirm req.managed
  throw ()

variable (calls cl d) in
theorem settle_run (ha : Around req orig l₁ l₂) (hc : Cast req orig b none)
    (hname : b.name = req.name) (up : Bool) :
    (((List.range d.length).all calls.connect && (!up || calls.restart)) ∧
      settle calls req up orig d ⟨scene l₁ l₂ b none, cl, d, false⟩ =
        .error () ⟨scene l₁ l₂
          { b with
            status := if up then .running else b.status
            networks := b.networks ++ d } none, confirmed req.managed cl, d, false⟩) ∨
    (((List.range d.length).all calls.connect && (!up || calls.restart)) = false ∧ ∃ w,
      settle calls req up orig d ⟨scene l₁ l₂ b none, cl, d, false⟩ = .error () w ∧
      w.broken ∧ Kept req orig w) := by
  have hall : (List.range d.length).all calls.connect ↔
      ∀ j < d.length, calls.connect (0 + j) := by
    simp only [List.all_eq_true, List.mem_range, Nat.zero_add]
  obtain ⟨joined, br, hre, hcases⟩ := reattach_run calls cl d false ha 0 d hc
  have hend : ∀ (w : World κ), (throw () : Op κ Unit) w = .error () w := fun _ => rfl
  have hcast : ∀ st, Cast req orig { b with networks := joined, status := st } none := fun _ =>
    ⟨hc.id, fun x hx => by cases hx⟩
  -- The rest of the handler, from what the networks have become.
  have hrest : ∀ st br', onlyIf up (attempt (start calls.restart orig.id))
        ⟨scene l₁ l₂ { b with networks := joined } none, cl, d, br⟩ =
        .ok () ⟨scene l₁ l₂ { b with networks := joined, status := st } none, cl, d, br'⟩ →
      settle calls req up orig d ⟨scene l₁ l₂ b none, cl, d, false⟩ =
        .error () ⟨scene l₁ l₂ { b with networks := joined, status := st } none,
          confirmed req.managed cl, d, br'⟩ := by
    intro st br' hstart
    exact (bind_ok hre).trans ((bind_ok hstart).trans ((bind_ok (confirm_run _ _)).trans (hend _)))
  have hstart : ∃ st br', onlyIf up (attempt (start calls.restart orig.id))
        ⟨scene l₁ l₂ { b with networks := joined } none, cl, d, br⟩ =
        .ok () ⟨scene l₁ l₂ { b with networks := joined, status := st } none, cl, d, br'⟩ ∧
      ((!up || calls.restart) ∧ br' = br ∧ st = (if up then .running else b.status) ∨
        (!up || calls.restart) = false ∧ br' = true) := by
    cases up with
    | false => exact ⟨b.status, br, rfl, Or.inl ⟨rfl, rfl, rfl⟩⟩
    | true =>
      cases hr : calls.restart with
      | false => exact ⟨b.status, true, attempt_fails (call_fails _), Or.inr ⟨rfl, rfl⟩⟩
      | true =>
        have hrun : start true orig.id ⟨scene l₁ l₂ { b with networks := joined } none, cl, d, br⟩ =
            .ok () ⟨scene l₁ l₂ { b with networks := joined, status := .running } none, cl, d, br⟩ := by
          have hm := modify_original cl d br ha (hcast b.status)
            fun c => { c with status := .running }
          rw [start, call_ok]
          exact congrArg (EStateM.Result.ok ()) hm
        exact ⟨.running, br, attempt_ok hrun, Or.inl ⟨rfl, rfl, rfl⟩⟩
  obtain ⟨st, br', hrun, hst⟩ := hstart
  have hkept : Kept req orig ⟨scene l₁ l₂ { b with networks := joined, status := st } none,
      confirmed req.managed cl, d, br'⟩ := kept_scene (hcast st) (Or.inl hname)
  rcases hcases with ⟨hconn, rfl, rfl⟩ | ⟨hconn, rfl⟩
  · rw [hall.mpr hconn, Bool.true_and]
    rcases hst with ⟨hs, rfl, rfl⟩ | ⟨hs, rfl⟩
    · exact Or.inl ⟨hs, hrest _ _ hrun⟩
    · exact Or.inr ⟨hs, _, hrest _ _ hrun, rfl, hkept⟩
  · have hno : (List.range d.length).all calls.connect = false :=
      (Bool.not_eq_true _).mp fun he => hconn (hall.mp he)
    rw [hno, Bool.false_and]
    refine Or.inr ⟨rfl, _, hrest _ _ hrun, ?_, hkept⟩
    rcases hst with ⟨-, hbr, -⟩ | ⟨-, hbr⟩
    · exact hbr
    · exact hbr

/-- No call of the handler fails, of those that it makes. -/
def undone (calls : Calls) (up : Bool) (replaced : Bool) (n : ℕ) : Bool :=
  (!replaced || calls.lookup && calls.discard) && calls.backup && calls.restore &&
    (List.range n).all calls.connect && (!up || calls.restart)

variable (calls cl d) in
/-- **The handler**: the original is as it was, or a call has failed and it is kept. -/
theorem rollback_run (ha : Around req orig l₁ l₂) (hc : Cast req orig b r)
    (hname : b.name = req.backup) (up : Bool) :
    (undone calls up r.isSome d.length ∧
      rollback calls req up ⟨scene l₁ l₂ b r, cl, d, false⟩ =
        .error () ⟨scene l₁ l₂
          { b with
            name := req.name
            status := if up then .running else b.status
            networks := b.networks ++ d } none, confirmed req.managed cl, d, false⟩) ∨
    (undone calls up r.isSome d.length = false ∧ ∃ w,
      rollback calls req up ⟨scene l₁ l₂ b r, cl, d, false⟩ = .error () w ∧
      w.broken ∧ Kept req orig w) := by
  have hne : b.name ≠ req.name := fun he => ha.names (hname.symm.trans he)
  have hnone : r.isNone = !r.isSome := by cases r <;> rfl
  unfold undone
  rw [← hnone]
  rcases discard_run calls cl d ha hc hname with
    ⟨hok, hdis⟩ | ⟨hok, hsome, hdis⟩
  · -- Nothing bears the name any more.
    rw [hok]
    have hc' : Cast req orig b none := ⟨hc.id, fun x hx => by cases hx⟩
    cases hbk : calls.backup with
    | false =>
      have hreq := require_fails (lookup_backup b none cl d false ha hname false)
      have hrun : rollback calls req up ⟨scene l₁ l₂ b r, cl, d, false⟩ =
          .error () ⟨scene l₁ l₂ b none, cl, d, true⟩ := by
        unfold rollback
        rw [hbk]
        exact (bind_ok hdis).trans (bind_error hreq)
      exact Or.inr ⟨by simp, _, hrun, rfl, kept_scene hc' (Or.inr hname)⟩
    | true =>
      have hreq := require_ok (lookup_backup b none cl d false ha hname true)
      have hfree : (⟨scene l₁ l₂ b none, cl, d, false⟩ : World κ).named req.name = false := by
        rw [← Bool.not_eq_true, named_iff ha.named]
        rintro (he | ⟨c, hm, -⟩)
        · exact hne he
        · cases hm
      cases hres : calls.restore with
      | false =>
        have hren : rename false b.id req.name ⟨scene l₁ l₂ b none, cl, d, false⟩ =
            .error () ⟨scene l₁ l₂ b none, cl, d, false⟩ := rfl
        have hrun : rollback calls req up ⟨scene l₁ l₂ b r, cl, d, false⟩ =
            .error () ⟨scene l₁ l₂ b none, cl, d, true⟩ := by
          unfold rollback
          rw [hbk, hres]
          exact (bind_ok hdis).trans ((bind_ok hreq).trans (bind_error (require_fails hren)))
        exact Or.inr ⟨by simp, _, hrun, rfl, kept_scene hc' (Or.inr hname)⟩
      | true =>
        have hren : rename true b.id req.name ⟨scene l₁ l₂ b none, cl, d, false⟩ =
            .ok () ⟨scene l₁ l₂ { b with name := req.name } none, cl, d, false⟩ := by
          have hm := modify_original cl d false ha hc'
            fun c => { c with name := req.name }
          rw [← hc.id] at hm
          rw [rename, hfree, Bool.not_false, Bool.and_true, call_ok, hm]
        have hlead : rollback calls req up ⟨scene l₁ l₂ b r, cl, d, false⟩ =
            settle calls req up orig d
              ⟨scene l₁ l₂ { b with name := req.name } none, cl, d, false⟩ := by
          unfold rollback settle
          rw [hbk, hres, ← hc.id]
          exact (bind_ok hdis).trans ((bind_ok hreq).trans ((bind_ok (require_ok hren)).trans
            (bind_ok rfl)))
        have hset := settle_run calls cl d ha
          (b := { b with name := req.name }) ⟨hc.id, hc'.replacement⟩ rfl up
        rcases hset with ⟨hs, hrun⟩ | ⟨hs, w, hrun, hbr, hkept⟩
        · refine Or.inl ⟨?_, hlead.trans hrun⟩
          simpa using hs
        · refine Or.inr ⟨?_, w, hlead.trans hrun, hbr, hkept⟩
          simpa using hs
  · -- The replacement still bears the name.
    rw [hok]
    obtain ⟨c, rfl⟩ := Option.isSome_iff_exists.mp hsome
    refine Or.inr ⟨by simp, ?_⟩
    cases hbk : calls.backup with
    | false =>
      have hreq := require_fails (lookup_backup b (some c) cl d true ha hname false)
      have hrun : rollback calls req up ⟨scene l₁ l₂ b (some c), cl, d, false⟩ =
          .error () ⟨scene l₁ l₂ b (some c), cl, d, true⟩ := by
        unfold rollback
        rw [hbk]
        exact (bind_ok hdis).trans (bind_error hreq)
      exact ⟨_, hrun, rfl, kept_scene hc (Or.inr hname)⟩
    | true =>
      have hreq := require_ok (lookup_backup b (some c) cl d true ha hname true)
      have htaken : (⟨scene l₁ l₂ b (some c), cl, d, true⟩ : World κ).named req.name :=
        (named_iff ha.named).mpr (Or.inr ⟨c, rfl, (hc.replacement c rfl).2⟩)
      have hren : rename calls.restore b.id req.name ⟨scene l₁ l₂ b (some c), cl, d, true⟩ =
          .error () ⟨scene l₁ l₂ b (some c), cl, d, true⟩ := by
        rw [rename, htaken, Bool.not_true, Bool.and_false]
        rfl
      have hrun : rollback calls req up ⟨scene l₁ l₂ b (some c), cl, d, false⟩ =
          .error () ⟨scene l₁ l₂ b (some c), cl, d, true⟩ := by
        unfold rollback
        rw [hbk]
        exact (bind_ok hdis).trans ((bind_ok hreq).trans (bind_error (require_fails hren)))
      exact ⟨_, hrun, rfl, kept_scene hc (Or.inr hname)⟩

/-! ## The call -/

/-- Where the original stands among the containers. -/
theorem Fits.split {w : World κ} (h : Fits req orig w) : ∃ l₁ l₂, Around req orig l₁ l₂ ∧
    w = ⟨scene l₁ l₂ orig none, w.claim, [], false⟩ := by
  have hmem : orig ∈ w.containers.filter fun c => decide (c.name = req.name) := by
    rw [h.named]
    exact List.mem_singleton.mpr rfl
  obtain ⟨hin, hn⟩ := List.mem_filter.mp hmem
  have hname : orig.name = req.name := of_decide_eq_true hn
  obtain ⟨l₁, l₂, hsplit⟩ := List.append_of_mem hin
  have hids := h.ids
  have hnamed := h.named
  rw [hsplit] at hids hnamed
  refine ⟨l₁, l₂, ?_, ?_⟩
  · have hsub : ∀ c ∈ l₁ ++ l₂, c ∈ w.containers := by
      intro c hc
      rw [hsplit]
      rcases List.mem_append.mp hc with hc | hc
      · exact List.mem_append.mpr (Or.inl hc)
      · exact List.mem_append.mpr (Or.inr (List.mem_cons_of_mem _ hc))
    exact
      { ids := fun c hc he => by
          rw [List.map_append, List.map_cons] at hids
          have hno := (List.nodup_middle.mp hids)
          rw [List.nodup_cons, ← List.map_append] at hno
          exact hno.1 (List.mem_map.mpr ⟨c, hc, he⟩)
        fresh := fun c hc => h.fresh c (hsub c hc)
        named := fun c hc he => by
          rw [List.filter_append, List.filter_cons, decide_eq_true hname, if_pos rfl] at hnamed
          have hlen := congrArg List.length hnamed
          rw [List.length_append, List.length_cons, List.length_singleton] at hlen
          have hc' : c ∈ (l₁.filter fun c => decide (c.name = req.name)) ++
              l₂.filter fun c => decide (c.name = req.name) := by
            rw [← List.filter_append]
            exact List.mem_filter.mpr ⟨hc, decide_eq_true he⟩
          have hpos := List.length_pos_of_mem hc'
          rw [List.length_append] at hpos
          omega
        backup := fun c hc => h.backup c (hsub c hc)
        id := h.fresh orig hin
        name := hname
        names := h.names }
  · have hscene : w.containers = scene l₁ l₂ orig none := by
      rw [hsplit, scene, Option.toList_none, List.append_nil]
    cases w
    obtain rfl := h.detached
    obtain rfl := h.broken
    rw [← hscene]

theorem Alike.refl (c : Container κ) : Alike c c :=
  ⟨rfl, rfl, rfl, rfl, List.Perm.refl _⟩

theorem forall₂_alike (l : List (Container κ)) : List.Forall₂ Alike l l :=
  List.forall₂_same.mpr fun c _ => Alike.refl c

theorem restored_scene (h : Alike orig b) :
    List.Forall₂ Alike (scene l₁ l₂ orig none) (scene l₁ l₂ b none) := by
  exact List.rel_append (forall₂_alike l₁) (List.Forall₂.cons h (forall₂_alike _))

/-- The containers are as they were exactly if the original is. -/
theorem restored_iff {cl' : Option Claim} :
    Restored (⟨scene l₁ l₂ orig none, cl, [], false⟩ : World κ)
      ⟨scene l₁ l₂ b none, cl', d, br⟩ ↔ Alike orig b ∧ cl' = cl := by
  constructor
  · intro h
    have hdrop := List.forall₂_drop_append (scene l₁ l₂ orig none) l₁ _ h.containers
    unfold scene at hdrop
    rw [List.drop_left] at hdrop
    refine ⟨?_, h.claim⟩
    cases hdrop with
    | cons hb _ => exact hb
  · rintro ⟨hb, hcl⟩
    exact ⟨restored_scene hb, hcl⟩

/-- What the claim is when the call begins. -/
def claimed (managed : Bool) (cl : Option Claim) : Option Claim :=
  if managed then some .pending else cl

variable (cl d br) in
theorem claim_run (managed : Bool) (cs : List (Container κ)) :
    claim managed ⟨cs, cl, d, br⟩ = .ok () ⟨cs, claimed managed cl, d, br⟩ := by
  cases managed <;> rfl

theorem claimed_iff {managed : Bool} :
    claimed managed cl = cl ↔ (managed → cl = some .pending) := by
  cases managed with
  | false => exact ⟨fun _ he => absurd he Bool.false_ne_true, fun _ => rfl⟩
  | true => exact ⟨fun he _ => he.symm, fun he => (he rfl).symm⟩

theorem confirmed_iff {managed : Bool} {cl' : Option Claim} (h : managed = false → cl' = cl) :
    confirmed managed cl' = cl ↔ (managed → cl = some .active) := by
  cases managed with
  | false => exact ⟨fun _ he => absurd he Bool.false_ne_true, fun _ => h rfl⟩
  | true => exact ⟨fun he _ => he.symm, fun he => (he rfl).symm⟩

theorem leaves_le (calls : Calls) (req : Request κ) (orig : Container κ) :
    leaves calls req orig ≤ orig.networks.length := by
  unfold leaves
  split
  · unfold Calls.left
    have hlen := (List.takeWhile_sublist (l := List.range orig.networks.length)
      calls.disconnect).length_le
    rw [List.length_range] at hlen
    exact hlen
  · exact Nat.zero_le _

theorem undone_eq (calls : Calls) (req : Request κ) (orig : Container κ) :
    undone calls orig.status.isUp (creates calls req orig)
      (orig.networks.take (leaves calls req orig)).length = undoes calls req orig := by
  rw [List.length_take, Nat.min_eq_left (leaves_le calls req orig)]
  rfl

/-- The original, stopped if it ran. -/
def stopped (orig : Container κ) : Container κ :=
  { orig with status := if orig.status.isUp then .exited else orig.status }

theorem alike_stopped_iff : Alike orig (stopped orig) ↔ orig.status.isUp = false := by
  constructor
  · intro h
    have hup := h.up
    unfold stopped at hup
    cases hu : orig.status.isUp with
    | false => rfl
    | true =>
      rw [hu, if_pos rfl] at hup
      cases hup
  · intro hu
    refine ⟨rfl, rfl, rfl, ?_, List.Perm.refl _⟩
    unfold stopped
    rw [hu, if_neg Bool.false_ne_true, hu]

/-- The handler has put the original back. -/
theorem alike_back (ha : Around req orig l₁ l₂) : Alike orig
    { left calls req orig { stopped orig with name := req.backup } with
      name := req.name
      status := if orig.status.isUp then .running else (stopped orig).status
      networks := orig.networks.drop (leaves calls req orig) ++
        orig.networks.take (leaves calls req orig) } := by
  refine ⟨rfl, ha.name.symm, rfl, ?_, ?_⟩
  · unfold stopped
    cases hu : orig.status.isUp with
    | true => rfl
    | false => exact hu
  · have hperm : List.Perm (orig.networks.drop (leaves calls req orig) ++
          orig.networks.take (leaves calls req orig))
        (orig.networks.take (leaves calls req orig) ++
          orig.networks.drop (leaves calls req orig)) := List.perm_append_comm
    rw [List.take_append_drop] at hperm
    exact hperm

theorem replaced_end (ha : Around req orig l₁ l₂) {c : Container κ} (hid : c.id = req.fresh)
    (hname : c.name = req.name) (hconf : some c.config = req.config)
    (hup : orig.status.isUp → c.status = .running) :
    Replaced req orig ⟨l₁ ++ (l₂ ++ [c]), cl, d, br⟩ := by
  have hnone : ∀ l : List (Container κ), (∀ x ∈ l, x.name ≠ req.name) →
      (l.filter fun x => decide (x.name = req.name)) = [] := fun l hl =>
    List.filter_eq_nil_iff.mpr fun x hx => by
      rw [decide_eq_true_eq]
      exact hl x hx
  refine ⟨⟨c, ?_, hconf, hup⟩, fun x hx => ?_⟩
  · dsimp only
    rw [List.filter_append, List.filter_append, hnone l₁ (both ha.named).1,
      hnone l₂ (both ha.named).2, List.filter_cons, decide_eq_true hname, if_pos rfl]
    rfl
  · rw [← List.append_assoc] at hx
    rcases List.mem_append.mp hx with hx | hx
    · exact ⟨ha.ids x hx, ha.backup x hx⟩
    · rw [List.mem_singleton.mp hx]
      refine ⟨fun he => ha.id (he.symm.trans hid), fun he => ha.names (he.symm.trans hname)⟩

variable (calls cl) in
/-- What the call leaves once the settings are accepted. -/
theorem replaceLocked_iff (ha : Around req orig l₁ l₂) (hconf : req.config = some config) :
    (match replaceLocked calls req orig config ⟨scene l₁ l₂ orig none, cl, [], false⟩ with
      | .ok _ w' => Replaced req orig w'
      | .error _ w' => Restored ⟨scene l₁ l₂ orig none, cl, [], false⟩ w' ∨
          w'.broken ∧ Kept req orig w') ↔
    (if orig.status.isUp && !calls.stop then req.managed → cl = some .pending
      else if !calls.rename then
        orig.status.isUp = false ∧ (req.managed = true → cl = some .pending)
      else completes calls req orig = true ∨ undoes calls req orig = false ∨
        (req.managed → cl = some .active)) := by
  have hclaim := claim_run cl [] false req.managed
    (scene l₁ l₂ orig none)
  have hcast : Cast req orig orig none := ⟨rfl, fun x hx => by cases hx⟩
  have hunbroken : ∀ {p : Prop} {cs : List (Container κ)} {cl'},
      (p ∨ (⟨cs, cl', [], false⟩ : World κ).broken ∧
        Kept req orig ⟨cs, cl', [], false⟩) ↔ p := fun {p cs cl'} =>
    ⟨fun h => h.elim (fun hp => hp) fun hb => absurd hb.1 Bool.false_ne_true, Or.inl⟩
  by_cases hstop : (orig.status.isUp && !calls.stop)
  case pos =>
    rw [if_pos hstop]
    rw [Bool.and_eq_true, Bool.not_eq_true'] at hstop
    have hrun : replaceLocked calls req orig config ⟨scene l₁ l₂ orig none, cl, [], false⟩ =
        .error () ⟨scene l₁ l₂ orig none, claimed req.managed cl, [], false⟩ := by
      unfold replaceLocked
      rw [hstop.1, hstop.2]
      exact (bind_ok hclaim).trans (bind_error rfl)
    rw [hrun]
    dsimp only
    rw [hunbroken, restored_iff, claimed_iff]
    exact and_iff_right (Alike.refl orig)
  case neg =>
    rw [if_neg hstop]
    have hstopped : onlyIf orig.status.isUp (stop calls.stop orig.id)
        ⟨scene l₁ l₂ orig none, claimed req.managed cl, [], false⟩ =
        .ok () ⟨scene l₁ l₂ (stopped orig) none, claimed req.managed cl, [], false⟩ := by
      refine onlyIf_ok (fun hu => ?_) fun hu => ?_
      · have hs : calls.stop := by
          rw [hu, Bool.true_and, Bool.not_eq_true', Bool.not_eq_false] at hstop
          exact hstop
        have hm := modify_original (claimed req.managed cl) [] false ha hcast
          fun c => { c with status := .exited }
        rw [hs, stop, call_ok, hm, stopped, hu]
        rfl
      · rw [stopped, hu]
        rfl
    have hfree : (⟨scene l₁ l₂ (stopped orig) none, claimed req.managed cl, [], false⟩ :
        World κ).named req.backup = false := by
      rw [← Bool.not_eq_true, named_iff ha.backup]
      rintro (he | ⟨c, hm, -⟩)
      · exact ha.names (he.symm.trans ha.name)
      · cases hm
    cases hren : calls.rename with
    | false =>
      rw [Bool.not_false, if_pos rfl]
      have hrun : replaceLocked calls req orig config ⟨scene l₁ l₂ orig none, cl, [], false⟩ =
          .error () ⟨scene l₁ l₂ (stopped orig) none, claimed req.managed cl, [], false⟩ := by
        unfold replaceLocked
        rw [hren]
        exact (bind_ok hclaim).trans ((bind_ok hstopped).trans (bind_error rfl))
      rw [hrun]
      dsimp only
      rw [hunbroken, restored_iff, claimed_iff, alike_stopped_iff]
    | true =>
      rw [Bool.not_true, if_neg Bool.false_ne_true]
      have hcast' : Cast req orig { stopped orig with name := req.backup } none :=
        ⟨rfl, fun x hx => by cases hx⟩
      have hrename : rename true orig.id req.backup
          ⟨scene l₁ l₂ (stopped orig) none, claimed req.managed cl, [], false⟩ =
          .ok () ⟨scene l₁ l₂ { stopped orig with name := req.backup } none,
            claimed req.managed cl, [], false⟩ := by
        have hcast₀ : Cast req orig (stopped orig) none := ⟨rfl, fun x hx => by cases hx⟩
        have hm := modify_original (claimed req.managed cl) [] false ha hcast₀
          fun c => { c with name := req.backup }
        rw [rename, hfree, Bool.not_false, Bool.and_true, call_ok, hm]
      have hlead : replaceLocked calls req orig config ⟨scene l₁ l₂ orig none, cl, [], false⟩ =
          (tryCatch (replace calls req orig config)
            fun _ => rollback calls req orig.status.isUp : Op κ Unit)
          ⟨scene l₁ l₂ { stopped orig with name := req.backup } none,
            claimed req.managed cl, [], false⟩ := by
        unfold replaceLocked
        rw [hren]
        exact (bind_ok hclaim).trans ((bind_ok hstopped).trans (bind_ok hrename))
      rw [hlead]
      rcases replace_run calls (claimed req.managed cl) config ha
          hcast' rfl rfl with ⟨hcomp, c, hrun, hid, hname, hc, hup⟩ |
          ⟨hcomp, r, cl', hrun, hr, hcr, hcl⟩
      · rw [tryCatch_ok hrun, hcomp]
        exact iff_of_true (replaced_end ha hid hname (by rw [hc, hconf]) hup) (Or.inl rfl)
      · rw [tryCatch_error hrun, hcomp]
        have hundone := undone_eq calls req orig
        rw [← hcr] at hundone
        rcases rollback_run calls cl'
            (orig.networks.take (leaves calls req orig)) ha
            (b := left calls req orig { stopped orig with name := req.backup })
            ⟨rfl, hr.replacement⟩ rfl orig.status.isUp with ⟨hu, hroll⟩ | ⟨hu, w, hroll, hb, hk⟩
        · rw [hundone] at hu
          rw [hroll, hu]
          have hcl' : req.managed = false → cl' = cl := by
            intro hm
            rw [hcl hm, hm]
            rfl
          constructor
          · rintro (hrest | ⟨hb, -⟩)
            · have hclaims := hrest.claim
              exact Or.inr (Or.inr ((confirmed_iff hcl').mp hclaims))
            · cases hb
          · rintro (hno | hno | hact)
            · cases hno
            · cases hno
            · exact Or.inl (restored_iff.mpr ⟨alike_back ha, (confirmed_iff hcl').mpr hact⟩)
        · rw [hundone] at hu
          rw [hroll, hu]
          exact iff_of_true (Or.inr ⟨hb, hk⟩) (Or.inr (Or.inl rfl))

/-- **A call is transactional exactly if it is `Sound`.** -/
theorem transactional_iff {calls : Calls} {req : Request κ} {orig : Container κ} {w : World κ}
    (h : Fits req orig w) : Transactional calls req orig w ↔ Sound calls req orig w := by
  obtain ⟨l₁, l₂, ha, hw⟩ := h.split
  obtain ⟨cl, hcl⟩ : ∃ cl, cl = w.claim := ⟨_, rfl⟩
  rw [← hcl] at hw
  subst hw
  have hfind := find_original l₁ l₂ none ha.named ha.name
  have hrest : Restored (⟨scene l₁ l₂ orig none, cl, [], false⟩ : World κ)
      ⟨scene l₁ l₂ orig none, cl, [], false⟩ := restored_iff.mpr ⟨Alike.refl orig, rfl⟩
  have hget : ∀ ok, lookup ok req.name ⟨scene l₁ l₂ orig none, cl, [], false⟩ =
      if ok then .ok orig ⟨scene l₁ l₂ orig none, cl, [], false⟩
      else .error () ⟨scene l₁ l₂ orig none, cl, [], false⟩ := by
    intro ok
    rw [lookup]
    rw [hfind]
  unfold Transactional Sound updateContainerSettings
  cases hg : calls.get with
  | false =>
    rw [bind_error (hget false)]
    exact iff_of_true (Or.inl hrest) (Or.inl rfl)
  | true =>
    rw [bind_ok (hget true)]
    cases hr : calls.reload with
    | false =>
      rw [bind_error (call_fails _)]
      exact iff_of_true (Or.inl hrest) (Or.inl rfl)
    | true =>
      rw [bind_ok (call_ok _)]
      cases hc : req.config with
      | none => exact iff_of_true (Or.inl hrest) (Or.inl rfl)
      | some config =>
        have hmain := replaceLocked_iff calls cl ha hc
        refine hmain.trans ⟨Or.inr, fun hs => hs.resolve_left nofun⟩

/-! ## Two calls -/

/-- A managed container that runs, beside another. -/
def original : Container String := ⟨1, "vllm", "old", .running, ["bridge"]⟩

def world : World String :=
  ⟨[original, ⟨2, "other", "other", .running, []⟩], some .active, [], false⟩

def edit : Request String := ⟨"vllm", "vllm.settings-backup", 3, some "new", true, "bridge"⟩

/-- Every call succeeds, but those that are named. -/
def working (rename create : Bool) : Calls where
  get := true
  reload := true
  stop := true
  rename := rename
  disconnect _ := true
  create := create
  find := true
  start := true
  refresh := true
  observations := [⟨true, true, false, false, true⟩]
  summary := true
  remove := true
  lookup := true
  discard := true
  backup := true
  restore := true
  connect _ := true
  restart := true

theorem edit_fits : Fits edit original world where
  named := rfl
  ids := by decide
  backup c hc := by
    rcases List.mem_cons.mp hc with rfl | hc
    · decide
    · rw [List.mem_singleton.mp hc]
      decide
  names := by decide
  fresh c hc := by
    rcases List.mem_cons.mp hc with rfl | hc
    · decide
    · rw [List.mem_singleton.mp hc]
      decide
  detached := rfl
  broken := rfl

/-- The replacement cannot be created, and the original is back. -/
theorem transactional_create :
    Transactional (working true false) edit original world ∧
      Restored world (match updateContainerSettings (working true false) edit world with
        | .ok _ w => w
        | .error _ w => w) := by
  have hsound : Sound (working true false) edit original world := Or.inr (by
    rw [if_neg (by decide), if_neg (by decide)]
    exact Or.inr (Or.inr fun _ => rfl))
  have htrans := (transactional_iff edit_fits).mpr hsound
  refine ⟨htrans, ?_⟩
  rcases htrans with hrest | ⟨hbroken, -⟩
  · exact hrest
  · cases hbroken

/-- The original cannot be renamed: it has been stopped, and its claim is pending. -/
theorem stranded_rename : Fits edit original world ∧
    ¬Transactional (working false true) edit original world := by
  refine ⟨edit_fits, ?_⟩
  rintro (hrest | ⟨hbroken, -⟩)
  · have hclaim := hrest.claim
    cases hclaim
  · cases hbroken

end SparkDeck.Recreate
