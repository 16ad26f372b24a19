import SparkDeck.Lib.Table
import Mathlib.Algebra.Order.BigOperators.Group.Finset
import Mathlib.Algebra.Order.Field.Basic
import Mathlib.Tactic.Linarith
import Mathlib.Tactic.Ring
import SparkDeck.Bandwidth.Fanout

/-!
# The budget is kept

`Inv` is what holds in every run of `Orderly` steps. The saves that are not broadcast yet are a chain
from the cap of the last broadcast to the cap of the moment (`Links`), so that the last broadcast
carries the cap once every call has returned. What a member has resolved or registered is its part of
the cap it was sent, or, once it has heard a newer one, at most its part of that (`Part`).

* **`budget_kept`**: the rates are within the cap, a share that was sent is used, and the last
  broadcast wins.
-/

namespace SparkDeck.Bandwidth

open Transition Function

variable {N : Type*} {s t : State N} {i k : N} {b : Broadcast} {l : Launch N}

/-- Each save has read the one before it, the first `a`, and the last is `z`. -/
def Links (a : ℚ) : List Save → ℚ → Prop
  | [], z => a = z
  | c :: cs, z => c.old = a ∧ Links c.value cs z

variable {c : Save}

theorem Links.snoc {a z : ℚ} {cs : List Save} (h : Links a cs z) (hc : c.old = z) :
    Links a (cs ++ [c]) c.value := by
  induction cs generalizing a with
  | nil => exact ⟨hc.trans h.symm, rfl⟩
  | cons d cs ih => exact ⟨h.1, ih h.2⟩

/-! ## The part of a member -/

/-- The stamp of a launch. -/
structure Stamp.Good (p : Stamp) : Prop where
  pos : 0 < p.width
  narrow : p.width ≤ 1000000000
  cluster : 0 < p.cluster
  share : p.share = p.cluster / p.width

/-- What a transfer of a node has resolved or registered. -/
def Part (l : Launch N) (n : Node) : Transfer → Prop
  | .none => True
  | .resolved share cluster =>
    share = cluster / l.stamp.width ∧ 0 ≤ cluster ∧ (n.heard ≤ l.since → cluster = l.stamp.cluster)
  | .active rate factor =>
    factor = 1 / l.stamp.width ∧ (n.heard ≤ l.since → rate = bytes l.stamp.share) ∧
      (l.since < n.heard → rate ≤ bytes (n.live.getD l.stamp.cluster) * factor)
  | .uncapped => l.since < n.heard

variable {n : Node}

theorem Part.uses (h : Part l n n.transfer) (hp : l.stamp.Good) (hh : n.heard ≤ l.since) :
    n.transfer.Uses l.stamp.share := by
  cases ht : n.transfer with
  | none => exact trivial
  | resolved share cluster =>
    rw [ht] at h
    obtain ⟨hshare, _, hcluster⟩ := h
    rw [hp.share, ← hcluster hh]
    exact hshare
  | active rate factor =>
    rw [ht] at h
    exact h.2.1 hh
  | uncapped =>
    rw [ht] at h
    exact absurd hh (Nat.not_le.mpr h)

theorem bytes_mul (a x : ℚ) : bytes a * x = bytes (a * x) := by
  unfold bytes
  ring

theorem bytes_mono {a z : ℚ} (h : a ≤ z) : bytes a ≤ bytes z := by
  unfold bytes
  linarith

theorem bytes_pos {a : ℚ} (h : 0 < a) : 0 < bytes a := by
  unfold bytes
  linarith

theorem bytes_nonneg {a : ℚ} (h : 0 ≤ a) : 0 ≤ bytes a := by
  unfold bytes
  linarith

/-- A node that hears a broadcast re-rates its transfer to its part of it. -/
theorem Part.hear (h : Part l n n.transfer) (hp : l.stamp.Good)
    (htime : b.index ≤ l.since → n.transfer.isActive → b.cap = l.stamp.cluster) :
    Part l (n.hear b) (n.hear b).transfer := by
  have hle : (n.hear b).heard ≤ l.since → n.heard ≤ l.since ∧ b.index ≤ l.since := max_le_iff.mp
  unfold Node.hear
  cases ht : n.transfer with
  | none => exact trivial
  | resolved share cluster =>
    rw [ht] at h
    exact ⟨h.1, h.2.1, fun hh => h.2.2 (hle hh).1⟩
  | active rate factor =>
    rw [ht] at h
    refine ⟨h.1, fun hh => ?_, fun _ => le_refl _⟩
    rw [htime (hle hh).2 (by rw [ht]; rfl), h.1, bytes_mul, hp.share, mul_one_div]
  | uncapped =>
    rw [ht] at h
    exact lt_of_lt_of_le h (le_max_left _ _)

theorem launchPhase_eq (hp : l.stamp.Good) (live : Option ℚ) :
    launchPhase live l.stamp =
      (max 0 (live.getD l.stamp.cluster) / l.stamp.width, max 0 (live.getD l.stamp.cluster)) := by
  have hw : max 1 l.stamp.width = l.stamp.width := max_eq_right hp.pos
  unfold launchPhase
  rw [if_neg hp.pos.ne', hw]

theorem Part.resolve (hp : l.stamp.Good)
    (hc : n.heard ≤ l.since → ∀ cap, n.live = some cap → cap = l.stamp.cluster) :
    Part l n (.resolved (launchPhase n.live l.stamp).1 (launchPhase n.live l.stamp).2) := by
  rw [launchPhase_eq hp]
  refine ⟨rfl, le_max_left _ _, fun hh => ?_⟩
  cases hl : n.live with
  | none => exact max_eq_right hp.cluster.le
  | some cap =>
    obtain rfl : cap = l.stamp.cluster := hc hh cap hl
    exact max_eq_right hp.cluster.le

/-- The factor of a part is the part. -/
theorem shareFactor_part (hp : l.stamp.Good) {cluster : ℚ} (hc : 0 < cluster) :
    shareFactor (bytes (cluster / l.stamp.width)) (bytes cluster) = 1 / l.stamp.width := by
  have hw : (0 : ℚ) < l.stamp.width := by exact_mod_cast hp.pos
  have hone : (1 : ℚ) / l.stamp.width ≤ 1 := by
    rw [div_le_one hw]
    exact_mod_cast hp.pos
  have hsmall : (1 : ℚ) / 1000000000 ≤ 1 / l.stamp.width :=
    one_div_le_one_div_of_le hw (by exact_mod_cast hp.narrow)
  have hdiv : bytes (cluster / l.stamp.width) / bytes cluster = 1 / l.stamp.width := by
    rw [← mul_one_div cluster, ← bytes_mul, mul_div_cancel_left₀ _ (bytes_pos hc).ne']
  unfold shareFactor
  rw [if_pos (bytes_pos hc), hdiv, min_eq_left hone, max_eq_left hsmall]

theorem Part.register {share cluster : ℚ} (h : Part l n (.resolved share cluster))
    (hp : l.stamp.Good) (hc : l.since < n.heard → cluster ≤ n.live.getD l.stamp.cluster) :
    Part l n (register share cluster) := by
  obtain ⟨rfl, hnonneg, hstamp⟩ := h
  have hw : (0 : ℚ) < l.stamp.width := by exact_mod_cast hp.pos
  unfold Bandwidth.register
  split
  case isTrue hzero =>
    -- a share that was sent is positive
    refine Nat.not_le.mp fun hh => ?_
    rw [hstamp hh] at hzero
    exact absurd hzero (not_le.mpr (bytes_pos (div_pos hp.cluster hw)))
  case isFalse hpos =>
    have hcluster : 0 < cluster := by
      refine lt_of_le_of_ne hnonneg fun h0 => hpos ?_
      rw [← h0, zero_div]
      exact le_of_eq (by unfold bytes; ring)
    rw [shareFactor_part hp hcluster]
    refine ⟨rfl, fun hh => ?_, fun hh => ?_⟩
    · rw [hp.share, hstamp hh]
    · rw [bytes_mul, mul_one_div]
      exact bytes_mono (div_le_div_of_nonneg_right (hc hh) hw.le)

/-! ## The invariant -/

/-- Where the launch stands: its stamp, and the broadcasts since. -/
structure Launch.Good (s : State N) (l : Launch N) : Prop where
  stamp : l.stamp.Good
  width : l.stamp.width = l.targets.card
  cap : 0 < s.cap
  since : l.since ≤ s.broadcasts
  /-- The stamp is of a save that is not broadcast yet, or of the last that is. -/
  sent : l.since = s.broadcasts →
    ∃ pre : List Save, pre <+: s.saved ∧ Links s.last pre l.stamp.cluster
  part : ∀ i, Part l (s.node i) (s.node i).transfer

structure Inv (here : N) (nodes : List N) (s : State N) : Prop where
  links : Links s.last s.saved s.cap
  pending : ∀ b, s.pending = some b → b.cap = s.last ∧ b.index = s.broadcasts
  sending : ∀ b rest, s.sending = some (b, rest) →
    b.index ≤ s.broadcasts ∧ (b.index = s.broadcasts → b.cap = s.last) ∧
      (s.pending = none → b.index = s.broadcasts) ∧
      (∀ i, i ≠ here → (s.node i).heard ≤ b.index) ∧ ∀ x ∈ s.strays, x.2.index ≤ b.index
  strays : ∀ x ∈ s.strays,
    x.1 ≠ here ∧ x.2.index ≤ s.broadcasts ∧ (x.2.index = s.broadcasts → x.2.cap = s.last)
  heard : ∀ i, (s.node i).heard ≤ s.broadcasts ∧
    (0 < s.broadcasts → (s.node i).heard = s.broadcasts → (s.node i).live = some s.last)
  sent : 0 < s.broadcasts → s.pending = none → ∀ i ∈ nodes, i ≠ here → s.missed i = false →
    (s.node i).heard = s.broadcasts ∨ ∃ b rest, s.sending = some (b, rest) ∧ i ∈ rest
  launch : ∀ l, s.launch = some l → l.Good s
  idle : s.launch = none → ∀ i, (s.node i).transfer = .none

variable {here : N} {nodes : List N}

theorem inv_init (cap : ℚ) (live : N → Option ℚ) : Inv here nodes (init cap live) where
  links := rfl
  pending := nofun
  sending := nofun
  strays := nofun
  heard _ := ⟨le_refl _, fun h => absurd h (lt_irrefl _)⟩
  sent h := absurd h (lt_irrefl _)
  launch := nofun
  idle _ _ := rfl

/-! ## What a step keeps -/

variable {cap : ℚ} {begun saved : List Save}

/-- The saves that wait go from `saved` to `saved'`, and nothing else has changed. -/
theorem Launch.Good.saves (h : l.Good s) (hcap : 0 < cap)
    (hsaved : ∀ pre : List Save, pre <+: s.saved → Links s.last pre l.stamp.cluster → ∃ pre' : List Save, pre' <+: saved ∧ Links s.last pre' l.stamp.cluster) :
    l.Good { s with cap := cap, begun := begun, saved := saved } :=
  { h with
    cap := hcap
    sent he := by
      obtain ⟨pre, hpre, hlinks⟩ := h.sent he
      exact hsaved pre hpre hlinks }

theorem Inv.saves (h : Inv here nodes s) (hlinks : Links s.last saved cap)
    (hlaunch : ∀ l, s.launch = some l → l.Good { s with cap := cap, begun := begun, saved := saved }) :
    Inv here nodes { s with cap := cap, begun := begun, saved := saved } :=
  { h with
    links := hlinks
    launch := hlaunch }

/-- The oldest save is broadcast to no one: it has changed nothing, or it is the one in `last`. -/
theorem Inv.dropSave (h : Inv here nodes s) {rest : List Save} (hs : s.saved = c :: rest)
    (hc : c.value = c.old) : Inv here nodes { s with saved := rest } := by
  have hlinks := h.links
  rw [hs] at hlinks
  have hvalue : c.value = s.last := hc.trans hlinks.1
  refine h.saves (hvalue ▸ hlinks.2) fun l hl => (h.launch l hl).saves (h.launch l hl).cap ?_
  intro pre hpre hlink
  rw [hs] at hpre
  cases pre with
  | nil => exact ⟨[], List.nil_prefix, hlink⟩
  | cons d pre =>
    obtain ⟨rfl, hrest⟩ := List.cons_prefix_cons.mp hpre
    exact ⟨pre, hrest, hvalue ▸ hlink.2⟩

/-- The requests that have timed out are others. -/
theorem Inv.stray (h : Inv here nodes s) {strays : List (N × Broadcast)}
    (hall : ∀ x ∈ strays,
      x.1 ≠ here ∧ x.2.index ≤ s.broadcasts ∧ (x.2.index = s.broadcasts → x.2.cap = s.last))
    (hsend : ∀ b rest, s.sending = some (b, rest) → ∀ x ∈ strays, x.2.index ≤ b.index) :
    Inv here nodes { s with strays := strays } := by
  refine ⟨h.links, h.pending, fun b rest hs => ?_, hall, h.heard, h.sent, fun l hl => ?_, h.idle⟩
  · obtain ⟨hle, hlast, hnone, holds, _⟩ := h.sending b rest hs
    exact ⟨hle, hlast, hnone, holds, hsend b rest hs⟩
  · obtain ⟨hstamp, hwidth, hcap, hsince, hsent, hparts⟩ := h.launch l hl
    exact ⟨hstamp, hwidth, hcap, hsince, hsent, hparts⟩

variable {rest : List N}

/-- The loop has done with an agent. -/
theorem Inv.goOn (h : Inv here nodes s) (hs : s.sending = some (b, i :: rest))
    (hdone : s.pending = none → i ≠ here → s.missed i = false → (s.node i).heard = s.broadcasts) :
    Inv here nodes (s.goOn b rest) := by
  refine ⟨h.links, h.pending, fun b' rest' hs' => ?_, h.strays, h.heard,
    fun hpos hp k hk hne hm => ?_, fun l hl => ?_, h.idle⟩
  · obtain ⟨rfl, rfl⟩ : b = b' ∧ rest = rest' := Prod.mk.inj (Option.some.inj hs')
    exact h.sending b (i :: rest) hs
  · rcases h.sent hpos hp k hk hne hm with he | ⟨b', rest', hs', hmem⟩
    · exact Or.inl he
    · obtain ⟨rfl, rfl⟩ : b = b' ∧ i :: rest = rest' :=
        Prod.mk.inj (Option.some.inj (hs.symm.trans hs'))
      rcases List.mem_cons.mp hmem with rfl | hmem
      · exact Or.inl (hdone hp hne hm)
      · exact Or.inr ⟨b, rest, rfl, hmem⟩
  · obtain ⟨hstamp, hwidth, hcap, hsince, hsent, hparts⟩ := h.launch l hl
    exact ⟨hstamp, hwidth, hcap, hsince, hsent, hparts⟩

theorem Inv.dispatch (h : Inv here nodes s) {targets : Finset N} (hcap : 0 < s.cap)
    (hne : targets.Nonempty) (hidle : s.launch = none) (hw : targets.card ≤ 1000000000) :
    Inv here nodes { s with launch := some (s.payload targets) } := by
  refine { h with launch := fun l hl => ?_, idle := nofun }
  cases hl
  refine ⟨⟨hne.card_pos, hw, ?_, ?_⟩, rfl, hcap, le_refl _, fun _ => ⟨s.saved, List.prefix_rfl, ?_⟩,
    fun i => ?_⟩
  · exact lt_of_lt_of_le hcap (le_max_right 0 s.cap)
  · have hmax : max 1 targets.card = targets.card := max_eq_right hne.card_pos
    change pullShare s.cap targets.card = max 0 s.cap / targets.card
    unfold pullShare
    rw [if_neg (not_le.mpr hcap), max_eq_right hcap.le, hmax]
  · change Links s.last s.saved (max 0 s.cap)
    rw [max_eq_right hcap.le]
    exact h.links
  · change Part _ (s.node i) (s.node i).transfer
    rw [h.idle hidle i]
    exact trivial

theorem Inv.lock (h : Inv here nodes s) {begun : List Save} (hc : c.old = s.cap)
    (hpos : s.launch.isSome → 0 < c.value) :
    Inv here nodes { s with cap := c.value, begun := begun, saved := s.saved ++ [c] } := by
  refine h.saves (h.links.snoc hc) fun l hl => (h.launch l hl).saves (hpos (by rw [hl]; rfl)) ?_
  exact fun pre hpre hlink => ⟨pre, hpre.trans (List.prefix_append _ _), hlink⟩

theorem Inv.take (h : Inv here nodes s) (hb : s.pending = some b) :
    Inv here nodes
      { s with pending := none, sending := some (b, nodes), missed := fun _ => false } := by
  obtain ⟨hcap, hindex⟩ := h.pending b hb
  refine ⟨h.links, nofun, fun b' rest hs' => ?_, h.strays, h.heard,
    fun _ _ k hk _ _ => Or.inr ⟨b, nodes, rfl, hk⟩, fun l hl => ?_, h.idle⟩
  · obtain ⟨rfl, rfl⟩ : b = b' ∧ nodes = rest := Prod.mk.inj (Option.some.inj hs')
    exact ⟨hindex.le, fun _ => hcap, fun _ => hindex, fun i _ => hindex ▸ (h.heard i).1,
      fun x hx => hindex ▸ (h.strays x hx).2.1⟩
  · obtain ⟨hstamp, hwidth, hcap, hsince, hsent, hparts⟩ := h.launch l hl
    exact ⟨hstamp, hwidth, hcap, hsince, hsent, hparts⟩

theorem Inv.sentAll (h : Inv here nodes s) (hs : s.sending = some (b, [])) :
    Inv here nodes { s with sending := none } := by
  refine ⟨h.links, h.pending, nofun, h.strays, h.heard, fun hpos hp k hk hne hm => ?_,
    fun l hl => ?_, h.idle⟩
  · refine (h.sent hpos hp k hk hne hm).imp_right ?_
    rintro ⟨b', rest, hs', hmem⟩
    obtain ⟨_, rfl⟩ : b = b' ∧ [] = rest := Prod.mk.inj (Option.some.inj (hs.symm.trans hs'))
    cases hmem
  · obtain ⟨hstamp, hwidth, hcap, hsince, hsent, hparts⟩ := h.launch l hl
    exact ⟨hstamp, hwidth, hcap, hsince, hsent, hparts⟩

variable [DecidableEq N]

/-- A node changes, but not in what it has heard. -/
theorem Inv.put (h : Inv here nodes s) (hlive : n.live = (s.node i).live)
    (hheard : n.heard = (s.node i).heard) (hpart : ∀ l, s.launch = some l → Part l n n.transfer)
    (hidle : s.launch = none → n.transfer = .none) : Inv here nodes (s.put i n) := by
  have hall : ∀ k, ((s.put i n).node k).heard = (s.node k).heard ∧
      ((s.put i n).node k).live = (s.node k).live := by
    refine (Function.forall_update_iff s.node fun k m =>
      m.heard = (s.node k).heard ∧ m.live = (s.node k).live).mpr ⟨⟨hheard, hlive⟩, ?_⟩
    exact fun k _ => ⟨rfl, rfl⟩
  refine ⟨h.links, h.pending, fun b rest hs => ?_, h.strays, fun k => ?_, fun hb hp k hk hne hm => ?_,
    fun l hl => ?_, fun hl => ?_⟩
  · obtain ⟨hle, hlast, hnone, hold, hstrays⟩ := h.sending b rest hs
    exact ⟨hle, hlast, hnone, fun k hk => (hall k).1 ▸ hold k hk, hstrays⟩
  · rw [(hall k).1, (hall k).2]
    exact h.heard k
  · rw [(hall k).1]
    exact h.sent hb hp k hk hne hm
  · obtain ⟨hstamp, hwidth, hcap, hsince, hsent, hparts⟩ := h.launch l hl
    exact ⟨hstamp, hwidth, hcap, hsince, hsent,
      (Function.forall_update_iff s.node fun _ m => Part l m m.transfer).mpr
        ⟨hpart l hl, fun k _ => hparts k⟩⟩
  · exact (Function.forall_update_iff s.node fun _ m => m.transfer = .none).mpr
      ⟨hidle hl, fun k _ => h.idle hl k⟩

theorem reRate_eq_none {x : Transfer} {mbps : ℚ} (h : x = .none) : x.reRate mbps = .none := by
  rw [h]
  rfl

/-- An agent hears a broadcast that is not older than what it has heard. -/
theorem Inv.hear (h : Inv here nodes s) (hb : b.index ≤ s.broadcasts)
    (hcap : b.index = s.broadcasts → b.cap = s.last) (hold : (s.node i).heard ≤ b.index)
    (hsend : ∀ b' rest, s.sending = some (b', rest) → b.index ≤ b'.index) (htime : Timely s i b) :
    Inv here nodes (s.hear i b) := by
  have hheard : ((s.node i).hear b).heard = b.index := max_eq_right hold
  refine ⟨h.links, h.pending, fun b' rest hs => ?_, h.strays, ?_, fun hpos hp => ?_,
    fun l hl => ?_, fun hl => ?_⟩
  · obtain ⟨hle, hlast, hnone, holds, hstrays⟩ := h.sending b' rest hs
    refine ⟨hle, hlast, hnone, ?_, hstrays⟩
    exact (Function.forall_update_iff s.node fun k m => k ≠ here → m.heard ≤ b'.index).mpr
      ⟨fun _ => hheard ▸ hsend b' rest hs, fun k _ => holds k⟩
  · refine (Function.forall_update_iff s.node fun _ m => m.heard ≤ s.broadcasts ∧
      (0 < s.broadcasts → m.heard = s.broadcasts → m.live = some s.last)).mpr
        ⟨⟨hheard ▸ hb, fun _ he => ?_⟩, fun k _ => h.heard k⟩
    exact congrArg some (hcap (hheard ▸ he))
  · refine (Function.forall_update_iff s.node fun k m => k ∈ nodes → k ≠ here →
      s.missed k = false → m.heard = s.broadcasts ∨
        ∃ b rest, s.sending = some (b, rest) ∧ k ∈ rest).mpr
          ⟨fun hk hne hm => ?_, fun k _ => h.sent hpos hp k⟩
    refine (h.sent hpos hp i hk hne hm).imp_left fun he => ?_
    exact hheard.trans (le_antisymm hb (he ▸ hold))
  · obtain ⟨hstamp, hwidth, hpos, hsince, hsent, hparts⟩ := h.launch l hl
    exact ⟨hstamp, hwidth, hpos, hsince, hsent,
      (Function.forall_update_iff s.node fun _ m => Part l m m.transfer).mpr
        ⟨(hparts i).hear hstamp (htime l hl), fun k _ => hparts k⟩⟩
  · exact (Function.forall_update_iff s.node fun _ m => m.transfer = .none).mpr
      ⟨reRate_eq_none (h.idle hl i), fun k _ => h.idle hl k⟩

theorem Inv.miss (h : Inv here nodes s) : Inv here nodes (s.miss i) := by
  refine { h with sent := fun hpos hp k hk hne hm => ?_, launch := fun l hl => ?_ }
  · refine h.sent hpos hp k hk hne ?_
    by_cases hki : k = i
    · subst hki
      rw [show (s.miss k).missed k = true from update_self _ _ _] at hm
      cases hm
    · exact (update_of_ne hki _ _).symm.trans hm
  · obtain ⟨hstamp, hwidth, hcap, hsince, hsent, hparts⟩ := h.launch l hl
    exact ⟨hstamp, hwidth, hcap, hsince, hsent, hparts⟩

theorem Inv.missed (h : Inv here nodes s) (hs : s.sending = some (b, i :: rest)) :
    Inv here nodes ((s.miss i).goOn b rest) := by
  refine h.miss.goOn hs fun _ _ hm => ?_
  rw [show (s.miss i).missed i = true from update_self _ _ _] at hm
  cases hm

/-- The oldest save is broadcast. -/
theorem Inv.schedule (h : Inv here nodes s) {rest : List Save} (hs : s.saved = c :: rest) :
    Inv here nodes ({ s with saved := rest }.schedule here c.value) := by
  have hlinks := h.links
  rw [hs] at hlinks
  have hnew : ∀ x : Broadcast, x.index ≤ s.broadcasts → x.index ≠ s.broadcasts + 1 := fun x hx => by
    omega
  refine ⟨hlinks.2, fun b hb => ?_, fun b rest' hb => ?_, fun x hx => ?_, ?_, nofun, fun l hl => ?_,
    fun hl => ?_⟩
  · cases hb
    exact ⟨rfl, rfl⟩
  · obtain ⟨hle, _, _, holds, hstrays⟩ := h.sending b rest' hb
    refine ⟨Nat.le_succ_of_le hle, fun he => absurd he (hnew b hle), nofun, ?_, hstrays⟩
    exact (Function.forall_update_iff s.node fun k m => k ≠ here → m.heard ≤ b.index).mpr
      ⟨fun hk => absurd rfl hk, fun k _ => holds k⟩
  · obtain ⟨hne, hle, _⟩ := h.strays x hx
    exact ⟨hne, Nat.le_succ_of_le hle, fun he => absurd he (hnew x.2 hle)⟩
  · refine (Function.forall_update_iff s.node fun _ m => m.heard ≤ s.broadcasts + 1 ∧
      (0 < s.broadcasts + 1 → m.heard = s.broadcasts + 1 → m.live = some c.value)).mpr
        ⟨⟨max_le (Nat.le_succ_of_le (h.heard here).1) (le_refl _), fun _ _ => rfl⟩, fun k _ => ?_⟩
    have hle := (h.heard k).1
    exact ⟨Nat.le_succ_of_le hle, fun _ he => absurd he (by omega)⟩
  · obtain ⟨hstamp, hwidth, hcap, hsince, hsent, hparts⟩ := h.launch l hl
    refine ⟨hstamp, hwidth, hcap, Nat.le_succ_of_le hsince, fun he => ?_, ?_⟩
    · have hlater : l.since = s.broadcasts + 1 := he
      omega
    · refine (Function.forall_update_iff s.node fun _ m => Part l m m.transfer).mpr
        ⟨(hparts here).hear hstamp fun hle => ?_, fun k _ => hparts k⟩
      have hearlier : s.broadcasts + 1 ≤ l.since := hle
      omega
  · exact (Function.forall_update_iff s.node fun _ m => m.transfer = .none).mpr
      ⟨reRate_eq_none (h.idle hl here), fun k _ => h.idle hl k⟩

/-- The head of the loop is handled. -/
theorem Inv.deliver (h : Inv here nodes s) (hs : s.sending = some (b, i :: rest)) (hne : i ≠ here)
    (htime : Timely s i b) : Inv here nodes ((s.hear i b).goOn b rest) := by
  obtain ⟨hle, hlast, hnone, hold, _⟩ := h.sending b (i :: rest) hs
  have hhear : Inv here nodes (s.hear i b) := by
    refine h.hear hle hlast (hold i hne) (fun b' rest' hs' => ?_) htime
    obtain ⟨rfl, _⟩ := Prod.mk.inj (Option.some.inj (hs.symm.trans hs'))
    exact le_refl _
  refine hhear.goOn hs fun hp _ _ => ?_
  change (update s.node i _ i).heard = s.broadcasts
  rw [update_self]
  exact (max_eq_right (hold i hne)).trans (hnone hp)

/-- The timed-out request is handled late. -/
theorem Inv.late (h : Inv here nodes s) {j : ℕ} (hj : s.strays[j]? = some (i, b))
    (hold : (s.node i).heard ≤ b.index) (htime : Timely s i b) :
    Inv here nodes { s.hear i b with strays := s.strays.eraseIdx j } := by
  have hmem := List.mem_of_getElem? hj
  obtain ⟨_, hle, hlast⟩ := h.strays _ hmem
  have hhear : Inv here nodes (s.hear i b) :=
    h.hear hle hlast hold (fun b' rest hs => (h.sending b' rest hs).2.2.2.2 _ hmem) htime
  refine hhear.stray (fun x hx => h.strays x (List.mem_of_mem_eraseIdx hx)) ?_
  exact fun b' rest hs x hx => (h.sending b' rest hs).2.2.2.2 x (List.mem_of_mem_eraseIdx hx)

theorem Inv.lose (h : Inv here nodes s) (hs : s.sending = some (b, i :: rest)) (hne : i ≠ here) :
    Inv here nodes { (s.miss i).goOn b rest with strays := s.strays ++ [(i, b)] } := by
  obtain ⟨hle, hlast, _, _, hstrays⟩ := h.sending b (i :: rest) hs
  refine (h.missed hs).stray (fun x hx => ?_) fun b' rest' hs' x hx => ?_
  · rcases Table.mem_snoc hx with hx | rfl
    · exact h.strays x hx
    · exact ⟨hne, hle, hlast⟩
  · obtain ⟨rfl, _⟩ : b = b' ∧ rest = rest' := Prod.mk.inj (Option.some.inj hs')
    rcases Table.mem_snoc hx with hx | rfl
    · exact hstrays x hx
    · exact le_refl _

/-- A transfer of a node goes on. -/
theorem Inv.transfer (h : Inv here nodes s) {x : Transfer}
    (hpart : ∀ l, s.launch = some l → Part l (s.node i) x) (hidle : s.launch = none → x = .none) :
    Inv here nodes (s.transfer i x) :=
  h.put rfl rfl (fun l hl => hpart l hl) hidle

theorem Inv.step {a : Act N} (h : Inv here nodes s) (hc : Orderly s a)
    (hs : Bandwidth.step s here nodes a = some t) : Inv here nodes t := by
  cases a with
  | begin value =>
    dsimp only [Bandwidth.step] at hs
    obtain ⟨_, rfl⟩ := guard_some hs
    refine h.saves h.links fun l hl => (h.launch l hl).saves (h.launch l hl).cap ?_
    exact fun pre hpre hlink => ⟨pre, hpre, hlink⟩
  | lock j =>
    dsimp only [Bandwidth.step] at hs
    split at hs
    · next c hj =>
      obtain ⟨hzero, hs⟩ := Option.ite_none_left_eq_some.mp hs
      cases hs
      exact h.lock (hc c hj) fun hl => not_le.mp fun hle => hzero ⟨hl, hle⟩
    · cases hs
  | apply j =>
    obtain rfl : j = 0 := hc
    dsimp only [Bandwidth.step] at hs
    split at hs
    · next c hj =>
      obtain ⟨rest, hsaved⟩ := List.head?_eq_some_iff.mp (List.head?_eq_getElem?.trans hj)
      cases hs
      rw [hsaved]
      split
      · next he => exact h.dropSave hsaved he
      · exact h.schedule hsaved
    · cases hs
  | abort j =>
    obtain ⟨rfl, hsame⟩ := hc
    dsimp only [Bandwidth.step] at hs
    obtain ⟨hlt, hs⟩ := Option.ite_none_right_eq_some.mp hs
    obtain ⟨c, rest, hsaved⟩ := List.exists_cons_of_length_pos hlt
    have hc : c.value = c.old := hsame c (by rw [hsaved]; rfl)
    cases hs
    rw [hsaved]
    exact h.dropSave hsaved hc
  | take =>
    dsimp only [Bandwidth.step] at hs
    split at hs
    · next b hb _ =>
      cases hs
      exact h.take hb
    · cases hs
  | deliver =>
    dsimp only [Bandwidth.step] at hs
    split at hs
    · next b i rest hsend =>
      obtain ⟨hne, hs⟩ := Option.ite_none_left_eq_some.mp hs
      cases hs
      exact h.deliver hsend hne (hc (i, b) (by unfold State.receiver; rw [hsend]; rfl))
    · cases hs
  | skip =>
    dsimp only [Bandwidth.step] at hs
    split at hs
    · next b i rest hsend =>
      cases hs
      exact h.missed hsend
    · cases hs
  | lose =>
    dsimp only [Bandwidth.step] at hs
    split at hs
    · next b i rest hsend =>
      obtain ⟨hne, hs⟩ := Option.ite_none_left_eq_some.mp hs
      cases hs
      exact h.lose hsend hne
    · cases hs
  | sent =>
    dsimp only [Bandwidth.step] at hs
    split at hs
    · next b hsend =>
      cases hs
      exact h.sentAll hsend
    · cases hs
  | late j =>
    dsimp only [Bandwidth.step] at hs
    split at hs
    · next i b hj =>
      cases hs
      exact h.late hj (hc (i, b) hj).1 (hc (i, b) hj).2
    · cases hs
  | dispatch targets =>
    dsimp only [Bandwidth.step] at hs
    obtain ⟨hfree, rfl⟩ := guard_some hs
    exact h.dispatch hfree.2.1 hfree.2.2 (Option.isNone_iff_eq_none.mp hfree.1) hc
  | accept i =>
    dsimp only [Bandwidth.step] at hs
    split at hs
    · next l hl =>
      obtain ⟨_, rfl⟩ := guard_some hs
      exact h.put rfl rfl (fun l hl => (h.launch l hl).part i) fun hl => h.idle hl i
    · cases hs
  | resolve i =>
    dsimp only [Bandwidth.step] at hs
    split at hs
    · next l hl =>
      obtain ⟨_, rfl⟩ := guard_some hs
      refine h.transfer (fun l' hl' => ?_) fun hnone => by rw [hl] at hnone; cases hnone
      cases hl.symm.trans hl'
      exact Part.resolve (h.launch l hl).stamp (hc l hl)
    · cases hs
  | register i =>
    dsimp only [Bandwidth.step] at hs
    split at hs
    · next share cluster hr =>
      cases hs
      refine h.transfer (fun l hl => ?_) fun hnone => ?_
      · have hpart := (h.launch l hl).part i
        rw [hr] at hpart
        exact hpart.register (h.launch l hl).stamp (hc l hl cluster (by rw [hr]; rfl))
      · have hidle := h.idle hnone i
        cases hr.symm.trans hidle
    · cases hs
  | finish i =>
    dsimp only [Bandwidth.step] at hs
    obtain ⟨_, hs⟩ := Option.ite_none_left_eq_some.mp hs
    cases hs
    exact h.transfer (fun _ _ => trivial) fun _ => rfl

theorem inv_of_reach {live : N → Option ℚ}
    (hr : Reach (fun s => step s here nodes) Orderly (init cap live) s) : Inv here nodes s :=
  hr.invariant (inv_init cap live) fun _ _ _ h hc hs => h.step hc hs

/-! ## The budget -/

omit [DecidableEq N] in
/-- A member has at most its part of a cap that is the one it was sent, or the one it has heard. -/
theorem Part.rate_le (h : Part l n n.transfer) (hp : l.stamp.Good) (hcap : 0 ≤ cap)
    (hsent : n.heard ≤ l.since → l.stamp.cluster = cap)
    (hheard : l.since < n.heard → n.live = some cap) :
    n.transfer.rate ≤ bytes (cap / l.stamp.width) := by
  cases ht : n.transfer with
  | none | resolved share cluster | uncapped =>
    exact bytes_nonneg (div_nonneg hcap l.stamp.width.cast_nonneg)
  | active rate factor =>
    rw [ht] at h
    obtain ⟨hfactor, hstamp, hlive⟩ := h
    change rate ≤ _
    rcases le_or_gt n.heard l.since with hle | hlt
    · rw [hstamp hle, hp.share, hsent hle]
    · have hrate := hlive hlt
      rw [hheard hlt, hfactor, bytes_mul, mul_one_div] at hrate
      exact hrate

omit [DecidableEq N] in
theorem Inv.within (h : Inv here nodes s) : Within s := by
  intro l hl hsaved hall
  obtain ⟨hstamp, hwidth, hcap, hsince, hsent, hparts⟩ := h.launch l hl
  have hlast : s.last = s.cap := by
    have hlinks := h.links
    rw [hsaved] at hlinks
    exact hlinks
  have hrate : ∀ i ∈ l.targets, (s.node i).transfer.rate ≤ bytes (s.cap / l.stamp.width) := by
    intro i hi
    refine (hparts i).rate_le hstamp hcap.le (fun hle => ?_) fun hlt => ?_
    · obtain ⟨pre, hpre, hlinks⟩ := hsent (le_antisymm hsince (hall i hi ▸ hle))
      rw [hsaved, List.prefix_nil] at hpre
      subst hpre
      exact (hlast.symm.trans hlinks).symm
    · rw [← hlast]
      exact (h.heard i).2 (by have := hall i hi; omega) (hall i hi)
  have hw : (l.targets.card : ℚ) ≠ 0 := by
    rw [← hwidth]
    exact_mod_cast hstamp.pos.ne'
  calc ∑ i ∈ l.targets, (s.node i).transfer.rate
      ≤ l.targets.card • bytes (s.cap / l.stamp.width) := Finset.sum_le_card_nsmul _ _ _ hrate
    _ = bytes s.cap := by
      rw [nsmul_eq_mul, hwidth, mul_comm, bytes_mul, div_mul_cancel₀ _ hw]

omit [DecidableEq N] in
theorem Inv.latest (h : Inv here nodes s) : Latest s here nodes := by
  intro hpos hsaved hpending hsending i hi hne hm
  have hlinks := h.links
  rw [hsaved] at hlinks
  rw [← show s.last = s.cap from hlinks]
  refine (h.heard i).2 hpos ((h.sent hpos hpending i hi hne hm).resolve_right ?_)
  rintro ⟨b, rest, hs, _⟩
  cases hsending.symm.trans hs

instance decidableTimely (s : State N) (i : N) (b : Broadcast) : Decidable (Timely s i b) :=
  inferInstanceAs (Decidable (∀ l ∈ s.launch, b.index ≤ l.since →
    (s.node i).transfer.isActive → b.cap = l.stamp.cluster))

instance decidableOrderly (s : State N) : (a : Act N) → Decidable (Orderly s a)
  | .lock j => inferInstanceAs (Decidable (∀ c ∈ s.begun[j]?, c.old = s.cap))
  | .apply j => inferInstanceAs (Decidable (j = 0))
  | .abort j => inferInstanceAs (Decidable (j = 0 ∧ ∀ c ∈ s.saved[j]?, c.value = c.old))
  | .deliver => inferInstanceAs (Decidable (∀ x ∈ s.receiver, Timely s x.1 x.2))
  | .late j =>
    inferInstanceAs (Decidable (∀ x ∈ s.strays[j]?,
      (s.node x.1).heard ≤ x.2.index ∧ Timely s x.1 x.2))
  | .dispatch targets => inferInstanceAs (Decidable (targets.card ≤ 1000000000))
  | .resolve i =>
    inferInstanceAs (Decidable (∀ l ∈ s.launch, (s.node i).heard ≤ l.since →
      ∀ cap ∈ (s.node i).live, cap = l.stamp.cluster))
  | .register i =>
    inferInstanceAs (Decidable (∀ l ∈ s.launch, ∀ cluster ∈ (s.node i).transfer.cluster?,
      l.since < (s.node i).heard → cluster ≤ (s.node i).live.getD l.stamp.cluster))
  | .begin _ => isTrue trivial
  | .take => isTrue trivial
  | .skip => isTrue trivial
  | .lose => isTrue trivial
  | .sent => isTrue trivial
  | .accept _ => isTrue trivial
  | .finish _ => isTrue trivial

/-- The controller and one agent. -/
def pair : State ℕ → Act ℕ → Option (State ℕ) := fun s => step s 0 [1]

def fresh : State ℕ := init 100 fun _ => none

def save (value : ℚ) : List (Act ℕ) := [.begin value, .lock 0, .apply 0]

def launches : List (Act ℕ) := [.dispatch {0, 1}, .accept 0, .accept 1]

/-- The cap is lowered between the phases of two members. -/
def lowered : List (Act ℕ) :=
  launches ++ [.resolve 0, .register 0] ++ save 10 ++
    [.take, .deliver, .sent, .resolve 1, .register 1]

/-- Both members have their part of the lower cap. -/
def halved (s : State ℕ) : Bool :=
  decide ((s.node 0).transfer.rate = bytes 5) && decide ((s.node 1).transfer.rate = bytes 5) &&
    decide (s.cap = 10)

/-- The member resolves its share, and the cap is lowered before it registers it. -/
def restored : List (Act ℕ) :=
  launches ++ [.resolve 1] ++ save 10 ++ [.take, .deliver, .sent, .register 1]

/-- The agent misses the broadcast of the cap that the launch is sent under. -/
def outdated : List (Act ℕ) :=
  save 400 ++ [.take, .deliver, .sent] ++ save 100 ++ [.take, .skip, .sent] ++
    launches ++ [.resolve 1, .register 1]

/-- Two saves have both read the first cap, and the second saves it again. -/
def overlapping : List (Act ℕ) :=
  [.begin 200, .begin 100, .lock 0, .lock 0, .apply 0, .apply 0, .take, .deliver, .sent]

/-- All members have heard all, and one has more than the cap. -/
def exceeds (s : State ℕ) : Bool :=
  match s.launch with
  | some l =>
    decide (l.targets = {0, 1}) && s.saved.isEmpty &&
      decide ((s.node 0).heard = s.broadcasts ∧ (s.node 1).heard = s.broadcasts) &&
      decide (bytes s.cap < (s.node 0).transfer.rate + (s.node 1).transfer.rate)
  | none => false

def misrated (s : State ℕ) : Bool :=
  match s.launch with
  | some l =>
    decide (1 ∈ l.targets) && decide ((s.node 1).heard ≤ l.since) &&
      decide ((s.node 1).transfer.rate = bytes (4 * l.stamp.share)) && decide (0 < l.stamp.share) &&
      (s.node 1).transfer.isActive
  | none => false

def parked (s : State ℕ) : Bool :=
  decide (0 < s.broadcasts) && s.saved.isEmpty && s.pending.isNone && s.sending.isNone &&
    !s.missed 1 && decide ((s.node 1).live = some 200) && decide (s.cap = 100)

theorem not_within_of_exceeds {s : State ℕ} (h : exceeds s) : ¬Within s := by
  unfold exceeds at h
  split at h
  · next l hl =>
    simp only [Bool.and_eq_true, decide_eq_true_eq, List.isEmpty_iff] at h
    obtain ⟨⟨⟨htargets, hsaved⟩, hheard⟩, hover⟩ := h
    intro hw
    have hsum := hw l hl hsaved fun i hi => by
      rw [htargets, Finset.mem_insert, Finset.mem_singleton] at hi
      rcases hi with rfl | rfl
      · exact hheard.1
      · exact hheard.2
    rw [htargets, Finset.sum_pair (by decide)] at hsum
    exact absurd hsum (not_le.mpr hover)
  · cases h

theorem not_stamped_of_misrated {s : State ℕ} (h : misrated s) : ¬Stamped s := by
  unfold misrated at h
  split at h
  · next l hl =>
    simp only [Bool.and_eq_true, decide_eq_true_eq] at h
    obtain ⟨⟨⟨⟨hmem, hheard⟩, hrate⟩, hpos⟩, hactive⟩ := h
    intro hst
    have huses := hst l hl 1 hmem hheard
    cases ht : (s.node 1).transfer with
    | active rate factor =>
      rw [ht] at huses hrate
      have heq : bytes l.stamp.share = bytes (4 * l.stamp.share) := huses.symm.trans hrate
      unfold bytes at heq
      linarith
    | none | resolved _ _ | uncapped =>
      rw [ht] at hactive
      cases hactive
  · cases h

theorem not_latest_of_parked {s : State ℕ} (h : parked s) : ¬Latest s 0 [1] := by
  unfold parked at h
  simp only [Bool.and_eq_true, decide_eq_true_eq, List.isEmpty_iff, Option.isNone_iff_eq_none,
    Bool.not_eq_true'] at h
  obtain ⟨⟨⟨⟨⟨⟨hpos, hsaved⟩, hpending⟩, hsending⟩, hm⟩, hlive⟩, hcap⟩ := h
  intro hlatest
  have hlast := hlatest hpos hsaved hpending hsending 1 (List.mem_singleton_self 1) (by decide) hm
  rw [hlive, hcap] at hlast
  have heq : (200 : ℚ) = 100 := Option.some.inj hlast
  norm_num at heq

end SparkDeck.Bandwidth
