import SparkDeck.Lib.Table
import SparkDeck.Lib.Transition
import SparkDeck.Strata.Volumes
import Mathlib.Data.List.Nodup

/-!
# Data volumes are reclaimed exactly

`volumes_exact` is about every run of the operations whose steps are `Plain`: a volume is reclaimed
for its own key only; where a relaunch preserved a volume, there is none when it is over but that of
the replacement's member; and where no removal has failed, every volume is addressed by a container
or a saved deployment. `other_reclaimed` is a launch that reclaims the volume of another record,
whose id begins with its own.

`Plain` excludes what goes wrong otherwise: a prefix that another key has (`ApartOf`), a deployment
that is dropped with a volume only it addresses (`Tidy`), and volumes that a relaunch preserves and
cannot reclaim any more (`Reclaimable`).

`Kept` goes through the operations: its `P` says which keys are pruned where, its `A` what accounts
for a volume without a container.
-/

namespace SparkDeck.Strata

open Transition

set_option linter.unusedSectionVars false

variable {N : Type} [DecidableEq N]

/-! ## Names -/

theorem Fingerprint.text_inj {a b : Fingerprint} (h : a.text = b.text) : a = b := by
  cases a
  cases b
  cases h
  rfl

theorem Volume.name_toList (v : Volume N) :
    v.name.toList = "sparkdeck-strata-".toList ++ v.key.toList ++ ['-'] ++ v.fingerprint.text.toList := by
  unfold Volume.name strataVolumePrefix
  simp only [String.toList_append]
  rfl

/-- A volume is told by its node and its name. -/
theorem Volume.name_inj {v w : Volume N} (hn : v.node = w.node) (h : v.name = w.name) : v = w := by
  have hl := congrArg String.toList h
  rw [name_toList, name_toList] at hl
  obtain ⟨hk, hf⟩ := List.append_inj' hl (v.fingerprint.length.trans w.fingerprint.length.symm)
  obtain ⟨hk, -⟩ := List.append_inj' hk rfl
  have hkey : v.key = w.key := String.toList_inj.mp (List.append_cancel_left hk)
  have hfp : v.fingerprint = w.fingerprint := Fingerprint.text_inj (String.toList_inj.mp hf)
  obtain ⟨a, b, c⟩ := v
  obtain ⟨a', b', c'⟩ := w
  obtain rfl : a = a' := hn
  obtain rfl : b = b' := hkey
  obtain rfl : c = c' := hfp
  rfl

/-- A volume has the prefix of its own key. -/
theorem Volume.matches_self (v : Volume N) : v.matches v.key := by
  unfold Volume.matches Volume.name
  rw [List.isPrefixOf_iff_prefix, String.toList_append, String.toList_append, List.append_assoc]
  exact List.prefix_append _ _

theorem Volume.name_ne (v : Volume N) : v.name ≠ "" := by
  intro h
  have hl := congrArg (List.length ∘ String.toList) h
  rw [Function.comp_apply, name_toList, List.length_append, v.fingerprint.length] at hl
  simp at hl

/-! ## What holds of the volumes -/

/-- Volumes are reclaimed for their own keys. -/
def Own (s : State N) : Prop := ∀ p ∈ s.reclaimed, p.2.key = p.1

/-- No volume where a key of `P` is pruned has the prefix of that key, unless it is its own. -/
def Apart (P : N → String → Prop) (s : State N) : Prop :=
  ∀ v ∈ s.volumes, ∀ k, P v.node k → v.matches k → v.key = k

/-- A volume has a container of its key, or is accounted for by `A`. -/
def Held (A : N → String → Prop) (s : State N) : Prop :=
  ∀ v ∈ s.volumes, v.node ∈ s.failed ∨ (∃ c ∈ s.containers, c.node = v.node ∧ c.key = v.key) ∨
    A v.node v.key

/-- The volumes of a node and a key are those of the container `name`. -/
def Settled (node : N) (key : String) (name : ContainerName) (s : State N) : Prop :=
  ∀ v ∈ s.volumes, v.node = node → v.key = key →
    ∃ c ∈ s.containers, c.node = node ∧ c.key = key ∧ c.name = name ∧
      c.fingerprint = v.fingerprint

/-- No other container has the key there. -/
def Alone (node : N) (key : String) (name : ContainerName) (s : State N) : Prop :=
  ∀ c ∈ s.containers, c.node = node → c.key = key → c.name = name

/-- Containers and volumes only go. -/
structure Sub (s s' : State N) : Prop where
  containers : ∀ c ∈ s'.containers, c ∈ s.containers
  volumes : ∀ v ∈ s'.volumes, v ∈ s.volumes
  deployments : s'.deployments = s.deployments
  failed : ∀ n ∈ s.failed, n ∈ s'.failed

variable {s s' t : State N} {P A B : N → String → Prop} {refuses : Volume N → Bool} {node : N}
  {key keep k : String} {name : ContainerName} {v : Volume N} {c : Container N} {calls : Calls N}

theorem Sub.refl (s : State N) : Sub s s :=
  ⟨fun _ h => h, fun _ h => h, rfl, fun _ h => h⟩

theorem Sub.trans (h : Sub s s') (h' : Sub s' t) : Sub s t where
  containers c hc := h.containers c (h'.containers c hc)
  volumes v hv := h.volumes v (h'.volumes v hv)
  deployments := h'.deployments.trans h.deployments
  failed n hn := h'.failed n (h.failed n hn)

theorem Held.mono (h : Held A s) (hAB : ∀ n k, A n k → B n k) : Held B s := by
  intro v hv
  rcases h v hv with hf | hc | ha
  · exact Or.inl hf
  · exact Or.inr (Or.inl hc)
  · exact Or.inr (Or.inr (hAB _ _ ha))

theorem Apart.sub (h : Apart P s) (hs : Sub s s') : Apart P s' :=
  fun v hv => h v (hs.volumes v hv)

theorem Alone.sub (h : Alone node key name s) (hs : Sub s s') : Alone node key name s' :=
  fun c hc => h c (hs.containers c hc)

/-! ## Pruning -/

theorem mem_prune : v ∈ (s.pruneStrataDataVolumes refuses node key keep).volumes ↔
    v ∈ s.volumes ∧ (s.stale node key keep v → refuses v) := by
  unfold State.pruneStrataDataVolumes
  rw [List.mem_filter]
  cases s.stale node key keep v <;> cases refuses v <;> simp

theorem prune_sub : Sub s (s.pruneStrataDataVolumes refuses node key keep) where
  containers _ hc := hc
  volumes _ hv := (mem_prune.mp hv).1
  deployments := rfl
  failed n hn := by
    unfold State.pruneStrataDataVolumes
    split
    · exact List.mem_cons_of_mem _ hn
    · exact hn

theorem stale_spec (h : s.stale node key keep v) :
    v.node = node ∧ v.name ≠ keep ∧ v.matches key = true ∧ s.inUse v = false := by
  simp only [State.stale, Bool.and_eq_true, decide_eq_true_eq, Bool.not_eq_true'] at h
  exact ⟨h.1.1.1, h.1.1.2, h.1.2, h.2⟩

theorem inUse_spec (h : s.inUse v) :
    ∃ c ∈ s.containers, c.node = v.node ∧ c.key = v.key ∧ c.fingerprint = v.fingerprint := by
  obtain ⟨c, hc, h⟩ := List.any_eq_true.mp h
  simp only [Bool.and_eq_true, decide_eq_true_eq] at h
  exact ⟨c, hc, h.1, h.2.1, h.2.2⟩

/-- A volume of the key that is left is in use, kept, or refused. -/
theorem left_spec (hv : v ∈ (s.pruneStrataDataVolumes refuses v.node v.key keep).volumes) :
    s.inUse v ∨ v.name = keep ∨ s.stale v.node v.key keep v ∧ refuses v := by
  by_cases hu : s.inUse v
  · exact Or.inl hu
  by_cases hk : v.name = keep
  · exact Or.inr (Or.inl hk)
  have hstale : s.stale v.node v.key keep v := by
    unfold State.stale
    rw [v.matches_self, (Bool.not_eq_true _).mp hu, decide_eq_true hk, decide_eq_true rfl]
    rfl
  exact Or.inr (Or.inr ⟨hstale, (mem_prune.mp hv).2 hstale⟩)

theorem prune_own (h : Own s) (ha : Apart P s) (hP : P node key) :
    Own (s.pruneStrataDataVolumes refuses node key keep) := by
  intro p hp
  rcases List.mem_append.mp hp with hp | hp
  · obtain ⟨v, hv, rfl⟩ := List.mem_map.mp hp
    obtain ⟨hmem, hst⟩ := List.mem_filter.mp hv
    rw [Bool.and_eq_true] at hst
    obtain ⟨rfl, -, hm, -⟩ := stale_spec hst.1
    exact ha v hmem key hP hm
  · exact h p hp

theorem prune_held (h : Held A s) : Held A (s.pruneStrataDataVolumes refuses node key keep) := by
  intro v hv
  rcases h v (mem_prune.mp hv).1 with hf | hc | ha
  · exact Or.inl (prune_sub.failed _ hf)
  · exact Or.inr (Or.inl hc)
  · exact Or.inr (Or.inr ha)

/-- Nothing has to account for the key any more. -/
theorem prune_dropped (h : Held (fun n k => A n k ∨ n = node ∧ k = key) s) :
    Held A (s.pruneStrataDataVolumes refuses node key "") := by
  intro v hv
  rcases h v (mem_prune.mp hv).1 with hf | hc | ha | ⟨rfl, rfl⟩
  · exact Or.inl (prune_sub.failed _ hf)
  · exact Or.inr (Or.inl hc)
  · exact Or.inr (Or.inr ha)
  · rcases left_spec hv with hu | hk | ⟨hst, hr⟩
    · obtain ⟨c, hc, hn, hk, -⟩ := inUse_spec hu
      exact Or.inr (Or.inl ⟨c, hc, hn, hk⟩)
    · exact absurd hk v.name_ne
    · refine Or.inl ?_
      unfold State.pruneStrataDataVolumes
      rw [if_pos (List.any_eq_true.mpr ⟨v, (mem_prune.mp hv).1, by rw [hst, hr]; rfl⟩)]
      exact List.mem_cons_self

/-- All that is left of the key belongs to the container. -/
theorem prune_settled (ha : Alone node key name s)
    (hr : ∀ v ∈ s.volumes, v.node = node → v.key = key → refuses v = false)
    (hk : ∀ v ∈ s.volumes, v.node = node → v.key = key → v.name = keep → s.inUse v) :
    Settled node key name (s.pruneStrataDataVolumes refuses node key keep) := by
  intro v hv hn hkey
  subst hn hkey
  have hmem := (mem_prune.mp hv).1
  have huse : s.inUse v := by
    rcases left_spec hv with hu | hkeep | ⟨-, hr'⟩
    · exact hu
    · exact hk v hmem rfl rfl hkeep
    · rw [hr v hmem rfl rfl] at hr'
      cases hr'
  obtain ⟨c, hc, hcn, hck, hcf⟩ := inUse_spec huse
  exact ⟨c, hc, hcn, hck, ha c hc hcn hck, hcf⟩

/-- Volumes go, and containers stay. -/
theorem Settled.kept (h : Settled node key name s) (hv : ∀ v ∈ s'.volumes, v ∈ s.volumes)
    (hc : ∀ c ∈ s.containers, c ∈ s'.containers) : Settled node key name s' := by
  intro v hmem hn hk
  obtain ⟨c, hmc, hrest⟩ := h v (hv v hmem) hn hk
  exact ⟨c, hc c hmc, hrest⟩

/-! ## Containers -/

/-- The name of a container says its key. -/
structure Labels (s : State N) : Prop where
  unique : ∀ c ∈ s.containers, ∀ c' ∈ s.containers, c.node = c'.node → c.name = c'.name →
    c.key = c'.key
  member : ∀ d ∈ s.deployments, ∀ c ∈ s.containers, ∀ rank, c.name = .member d.id rank →
    c.key = d.key rank

theorem Labels.sub (h : Labels s) (hs : Sub s s') : Labels s' where
  unique c hc c' hc' := h.unique c (hs.containers c hc) c' (hs.containers c' hc')
  member d hd c hc := by
    rw [hs.deployments] at hd
    exact h.member d hd c (hs.containers c hc)

/-- What reclaims and accounts for volumes. -/
structure Kept (P A : N → String → Prop) (s : State N) : Prop where
  own : Own s
  apart : Apart P s
  held : Held A s

theorem Kept.prune (h : Kept P A s) (hP : P node key) :
    Kept P A (s.pruneStrataDataVolumes refuses node key keep) where
  own := prune_own h.own h.apart hP
  apart := h.apart.sub prune_sub
  held := prune_held h.held

/-- What the removal of a container does to the list. -/
theorem removeContainer_spec {preserve : Bool}
    (h : s.removeContainer refuses preserve node name = some s') :
    ∃ c ∈ s.containers, c.node = node ∧ c.name = name ∧
      s' = if preserve then { s with containers := s.containers.filter fun c =>
          !(decide (c.node = node) && decide (c.name = name)) }
        else ({ s with containers := s.containers.filter fun c =>
          !(decide (c.node = node) && decide (c.name = name)) } : State N).pruneStrataDataVolumes
            refuses node c.key "" := by
  obtain ⟨c, hf, rfl⟩ := Option.map_eq_some_iff.mp h
  have hp := List.find?_some hf
  rw [Bool.and_eq_true, decide_eq_true_eq, decide_eq_true_eq] at hp
  exact ⟨c, List.mem_of_find?_eq_some hf, hp.1, hp.2, rfl⟩

theorem removeContainer_sub {preserve : Bool}
    (h : s.removeContainer refuses preserve node name = some s') : Sub s s' := by
  obtain ⟨c, -, -, -, rfl⟩ := removeContainer_spec h
  have hfilter : Sub s { s with containers := s.containers.filter fun c =>
      !(decide (c.node = node) && decide (c.name = name)) } :=
    ⟨fun _ hc => List.mem_of_mem_filter hc, fun _ hv => hv, rfl, fun _ hn => hn⟩
  cases preserve with
  | true => exact hfilter
  | false => exact hfilter.trans prune_sub

/-- The container is gone. -/
theorem removeContainer_gone {preserve : Bool}
    (h : s.removeContainer refuses preserve node name = some s') {c : Container N}
    (hc : c ∈ s'.containers) : ¬(c.node = node ∧ c.name = name) := by
  obtain ⟨c', -, -, -, rfl⟩ := removeContainer_spec h
  have hmem : c ∈ s.containers.filter fun c =>
      !(decide (c.node = node) && decide (c.name = name)) := by
    cases preserve with
    | true => exact hc
    | false => exact hc
  have hb := (List.mem_filter.mp hmem).2
  rintro ⟨h1, h2⟩
  rw [decide_eq_true h1, decide_eq_true h2] at hb
  cases hb

/-- A removal reclaims the key of the container, or has it accounted for. -/
theorem Kept.removeContainer {preserve : Bool} (h : Kept P A s)
    (hl : ∀ c ∈ s.containers, c.node = node → c.name = name → c.key = key ∧ P node c.key ∧
      (preserve → A node c.key))
    (hr : s.removeContainer refuses preserve node name = some s') : Kept P A s' := by
  have hsub := removeContainer_sub hr
  obtain ⟨c, hc, hn, hname, rfl⟩ := removeContainer_spec hr
  obtain ⟨hkey, hP, hA⟩ := hl c hc hn hname
  have hheld : Held (fun n k => A n k ∨ n = node ∧ k = c.key)
      { s with containers := s.containers.filter fun c =>
        !(decide (c.node = node) && decide (c.name = name)) } := by
    intro v hv
    rcases h.held v hv with hf | ⟨c', hc', hn', hk'⟩ | ha
    · exact Or.inl hf
    · by_cases hgone : c'.node = node ∧ c'.name = name
      · refine Or.inr (Or.inr (Or.inr ⟨hn'.symm.trans hgone.1, ?_⟩))
        rw [← hk', (hl c' hc' hgone.1 hgone.2).1, hkey]
      · refine Or.inr (Or.inl ⟨c', List.mem_filter.mpr ⟨hc', ?_⟩, hn', hk'⟩)
        by_cases h1 : c'.node = node
        · have h2 : c'.name ≠ name := fun h2 => hgone ⟨h1, h2⟩
          rw [decide_eq_false h2, Bool.and_false]
          rfl
        · rw [decide_eq_false h1, Bool.false_and]
          rfl
    · exact Or.inr (Or.inr (Or.inl ha))
  cases preserve with
  | true =>
    refine ⟨h.own, h.apart.sub hsub, ?_⟩
    rw [if_pos rfl]
    refine hheld.mono ?_
    rintro n k (ha | ⟨rfl, rfl⟩)
    · exact ha
    · exact hA rfl
  | false =>
    refine ⟨?_, h.apart.sub hsub, ?_⟩
    · rw [if_neg Bool.false_ne_true]
      exact prune_own (P := P) h.own h.apart hP
    · rw [if_neg Bool.false_ne_true]
      exact prune_dropped hheld

theorem fail_sub (node : N) : Sub s (s.fail node) :=
  ⟨fun _ h => h, fun _ h => h, rfl, fun _ h => List.mem_cons_of_mem _ h⟩

theorem Kept.fail (h : Kept P A s) (node : N) : Kept P A (s.fail node) :=
  { h with
    held v hv := by
      rcases h.held v hv with hf | hrest
      · exact Or.inl (List.mem_cons_of_mem _ hf)
      · exact Or.inr hrest }

variable {how : Removal} {preserve : Bool} {id : String}

theorem remove_sub : Sub s (s.remove refuses how preserve node name).1 := by
  cases how with
  | failed => exact fail_sub node
  | lost =>
    unfold State.remove
    cases hr : s.removeContainer refuses preserve node name with
    | none => exact fail_sub node
    | some s' => exact (removeContainer_sub hr).trans (fail_sub node)
  | done =>
    unfold State.remove
    cases hr : s.removeContainer refuses preserve node name with
    | none => exact Sub.refl s
    | some s' => exact removeContainer_sub hr

theorem remove_error : (s.remove refuses how preserve node name).2 = .error ↔ how ≠ .done := by
  cases how with
  | failed | lost => simp [State.remove]
  | done =>
    unfold State.remove
    cases s.removeContainer refuses preserve node name with
    | none => simp
    | some s' => simp

theorem Kept.remove (h : Kept P A s)
    (hl : ∀ c ∈ s.containers, c.node = node → c.name = name → c.key = key ∧ P node c.key ∧
      (preserve → A node c.key)) : Kept P A (s.remove refuses how preserve node name).1 := by
  cases how with
  | failed => exact h.fail node
  | lost =>
    unfold State.remove
    cases hr : s.removeContainer refuses preserve node name with
    | none => exact h.fail node
    | some s' => exact (h.removeContainer hl hr).fail node
  | done =>
    unfold State.remove
    cases hr : s.removeContainer refuses preserve node name with
    | none => exact h
    | some s' => exact h.removeContainer hl hr

/-- A removal that is done leaves no such container. -/
theorem remove_gone (hc : c ∈ (s.remove refuses .done preserve node name).1.containers) :
    ¬(c.node = node ∧ c.name = name) := by
  unfold State.remove at hc
  cases hr : s.removeContainer refuses preserve node name with
  | some s' =>
    rw [hr] at hc
    exact removeContainer_gone hr hc
  | none =>
    rw [hr] at hc
    have hnone : (s.containers.find? fun c =>
        decide (c.node = node) && decide (c.name = name)) = none := by
      exact Option.map_eq_none_iff.mp hr
    rintro ⟨h1, h2⟩
    have hb := List.find?_eq_none.mp hnone c hc
    rw [decide_eq_true h1, decide_eq_true h2] at hb
    exact hb rfl

variable {removal : N → Removal} {preserveOf : Member N → Bool} {members : List (Member N)}
  {m : Member N}

theorem removeMembers_sub :
    Sub s (s.removeMembers refuses removal preserveOf id members).1 := by
  induction members generalizing s with
  | nil => exact Sub.refl s
  | cons m members ih => exact remove_sub.trans ih

/-- The removals fail if one does. -/
theorem removeMembers_error :
    ((s.removeMembers refuses removal preserveOf id members).2.any fun a =>
      decide (a.2 = .error)) = members.any fun m => decide (removal m.node ≠ .done) := by
  induction members generalizing s with
  | nil => rfl
  | cons m members ih =>
    rw [State.removeMembers, List.any_cons, List.any_cons, ih]
    congr 1
    exact decide_eq_decide.mpr remove_error

theorem Kept.removeMembers {K : Member N → String} (h : Kept P A s)
    (hl : ∀ m ∈ members, ∀ c ∈ s.containers, c.node = m.node → c.name = .member id m.rank →
      c.key = K m ∧ P m.node c.key ∧ (preserveOf m → A m.node c.key)) :
    Kept P A (s.removeMembers refuses removal preserveOf id members).1 := by
  induction members generalizing s with
  | nil => exact h
  | cons m members ih =>
    refine ih (h.remove (hl m List.mem_cons_self)) fun m' hm' c hc => ?_
    exact hl m' (List.mem_cons_of_mem m hm') c (remove_sub.containers c hc)

theorem removeMembers_gone (hm : m ∈ members) (hdone : removal m.node = .done)
    (hc : c ∈ (s.removeMembers refuses removal preserveOf id members).1.containers) :
    ¬(c.node = m.node ∧ c.name = .member id m.rank) := by
  induction members generalizing s with
  | nil => cases hm
  | cons m' members ih =>
    rcases List.mem_cons.mp hm with rfl | hm
    · have hc' : c ∈ (s.remove refuses (removal m.node) (preserveOf m) m.node
          (.member id m.rank)).1.containers := removeMembers_sub.containers c hc
      rw [hdone] at hc'
      exact remove_gone hc'
    · exact ih hm hc

/-! ## Launches -/

theorem strataDataVolume_mem {w : Volume N} :
    w ∈ (s.strataDataVolume v).volumes ↔ w = v ∨ w ∈ s.volumes := by
  unfold State.strataDataVolume
  split
  case isTrue h =>
    refine ⟨Or.inr, ?_⟩
    rintro (rfl | hw)
    · exact h
    · exact hw
  case isFalse => exact List.mem_cons

theorem strataDataVolume_frame : (s.strataDataVolume v).containers = s.containers ∧
    (s.strataDataVolume v).deployments = s.deployments ∧
    (s.strataDataVolume v).failed = s.failed ∧ (s.strataDataVolume v).reclaimed = s.reclaimed := by
  unfold State.strataDataVolume
  split
  · exact ⟨rfl, rfl, rfl, rfl⟩
  · exact ⟨rfl, rfl, rfl, rfl⟩

/-- The volume of a container. -/
def Container.volume (c : Container N) : Volume N := ⟨c.node, c.key, c.fingerprint⟩

/-- Only this volume and this container are made. -/
structure Grows (v : Volume N) (c : Container N) (s s' : State N) : Prop where
  containers : ∀ c' ∈ s'.containers, c' = c ∨ c' ∈ s.containers
  volumes : ∀ w ∈ s'.volumes, w = v ∨ w ∈ s.volumes
  deployments : s'.deployments = s.deployments
  failed : ∀ n ∈ s.failed, n ∈ s'.failed

variable {made : Made}

theorem strataDataVolume_grows (c : Container N) :
    Grows c.volume c s (s.strataDataVolume c.volume) where
  containers c' hc' := by
    rw [strataDataVolume_frame.1] at hc'
    exact Or.inr hc'
  volumes w hw := strataDataVolume_mem.mp hw
  deployments := strataDataVolume_frame.2.1
  failed n hn := by
    rw [strataDataVolume_frame.2.2.1]
    exact hn

/-- The container runs. -/
def State.run (refuses : Volume N → Bool) (c : Container N) (s : State N) : State N :=
  { s.strataDataVolume c.volume with
    containers := c :: (s.strataDataVolume c.volume).containers }.pruneStrataDataVolumes refuses
      c.node c.key c.volume.name

theorem run_grows (c : Container N) : Grows c.volume c s (s.run refuses c) where
  containers c' hc' := by
    rcases List.mem_cons.mp (prune_sub.containers c' hc') with rfl | hc'
    · exact Or.inl rfl
    · exact (strataDataVolume_grows c).containers c' hc'
  volumes w hw := by
    have hmem := (mem_prune.mp hw).1
    exact (strataDataVolume_grows c).volumes w hmem
  deployments := (strataDataVolume_grows c).deployments
  failed n hn := by
    refine prune_sub.failed n ?_
    exact (strataDataVolume_grows c).failed n hn

theorem create_grows (c : Container N) :
    Grows c.volume c s (s.createStrataContainer refuses made c) := by
  cases made with
  | refused => exact ⟨fun _ h => Or.inr h, fun _ h => Or.inr h, rfl, fun _ h => h⟩
  | halfway => exact strataDataVolume_grows c
  | created | lost => exact run_grows c

theorem Labels.grows (h : Labels s) (hg : Grows v c s s')
    (hu : ∀ c' ∈ s.containers, c'.node = c.node → c'.name = c.name → c'.key = c.key)
    (hm : ∀ d ∈ s.deployments, ∀ rank, c.name = .member d.id rank → c.key = d.key rank) :
    Labels s' where
  unique c₁ h₁ c₂ h₂ hn hname := by
    rcases hg.containers c₁ h₁ with rfl | h₁
    · rcases hg.containers c₂ h₂ with rfl | h₂
      · rfl
      · exact (hu c₂ h₂ hn.symm hname.symm).symm
    · rcases hg.containers c₂ h₂ with rfl | h₂
      · exact hu c₁ h₁ hn hname
      · exact h.unique c₁ h₁ c₂ h₂ hn hname
  member d hd c' hc' rank hname := by
    rw [hg.deployments] at hd
    rcases hg.containers c' hc' with rfl | hc'
    · exact hm d hd rank hname
    · exact h.member d hd c' hc' rank hname

/-- A volume without a container has to be accounted for. -/
theorem Kept.create (h : Kept P A s) (hP : P c.node c.key)
    (hv : ∀ k, P c.node k → c.volume.matches k → c.key = k)
    (hA : made = .halfway → c.volume ∈ s.volumes ∨ A c.node c.key) :
    Kept P A (s.createStrataContainer refuses made c) := by
  have hapart : Apart P (s.strataDataVolume c.volume) := by
    intro w hw k hk hmatch
    rcases strataDataVolume_mem.mp hw with rfl | hw
    · exact hv k hk hmatch
    · exact h.apart w hw k hk hmatch
  have hrun : Kept P A (s.run refuses c) := by
    refine Kept.prune ⟨?_, hapart, ?_⟩ hP
    · change ∀ p ∈ (s.strataDataVolume c.volume).reclaimed, p.2.key = p.1
      rw [strataDataVolume_frame.2.2.2]
      exact h.own
    · intro w hw
      rcases strataDataVolume_mem.mp hw with rfl | hw
      · exact Or.inr (Or.inl ⟨c, List.mem_cons_self, rfl, rfl⟩)
      · rcases h.held w hw with hf | ⟨c', hc', hrest⟩ | ha
        · refine Or.inl ?_
          rw [strataDataVolume_frame.2.2.1]
          exact hf
        · refine Or.inr (Or.inl ⟨c', List.mem_cons_of_mem _ ?_, hrest⟩)
          rw [strataDataVolume_frame.1]
          exact hc'
        · exact Or.inr (Or.inr ha)
  cases made with
  | refused => exact h
  | created => exact hrun
  | lost => exact hrun
  | halfway =>
    refine ⟨?_, hapart, ?_⟩
    · change ∀ p ∈ (s.strataDataVolume c.volume).reclaimed, p.2.key = p.1
      rw [strataDataVolume_frame.2.2.2]
      exact h.own
    · intro w hw
      change w.node ∈ (s.strataDataVolume c.volume).failed ∨
        (∃ c' ∈ (s.strataDataVolume c.volume).containers, _) ∨ _
      rw [strataDataVolume_frame.1, strataDataVolume_frame.2.2.1]
      rcases strataDataVolume_mem.mp hw with rfl | hw
      · rcases hA rfl with hmem | ha
        · exact h.held _ hmem
        · exact Or.inr (Or.inr ha)
      · exact h.held w hw

/-- What a launch that creates the container leaves of its key is the volume of the container. -/
theorem create_settled (ha : Alone c.node c.key c.name s)
    (hr : ∀ v ∈ s.volumes, v.node = c.node → v.key = c.key → refuses v = false)
    (hc : refuses c.volume = false) :
    Settled c.node c.key c.name (s.createStrataContainer refuses .created c) := by
  refine prune_settled ?_ ?_ ?_
  · intro c' hc' hn hk
    rcases List.mem_cons.mp hc' with rfl | hc'
    · rfl
    · rw [strataDataVolume_frame.1] at hc'
      exact ha c' hc' hn hk
  · intro w hw hn hk
    rcases strataDataVolume_mem.mp hw with rfl | hw
    · exact hc
    · exact hr w hw hn hk
  · intro w _ hn hk hname
    obtain rfl : w = c.volume := Volume.name_inj hn hname
    refine List.any_eq_true.mpr ⟨c, List.mem_cons_self, ?_⟩
    simp [Container.volume]

/-- Another node is launched. -/
theorem Settled.create (h : Settled node key name s) (hne : c.node ≠ node) :
    Settled node key name (s.createStrataContainer refuses made c) := by
  intro w hw hn hk
  have hcon : ∀ c' ∈ s.containers, c' ∈ (s.createStrataContainer refuses made c).containers := by
    intro c' hc'
    cases made with
    | refused => exact hc'
    | halfway =>
      change c' ∈ (s.strataDataVolume c.volume).containers
      rw [strataDataVolume_frame.1]
      exact hc'
    | created | lost =>
      change c' ∈ c :: (s.strataDataVolume c.volume).containers
      rw [strataDataVolume_frame.1]
      exact List.mem_cons_of_mem c hc'
  rcases (create_grows c).volumes w hw with rfl | hw
  · exact absurd hn hne
  · obtain ⟨c', hc', hrest⟩ := h w hw hn hk
    exact ⟨c', hcon c' hc', hrest⟩

/-! ## Placements -/

variable {record : String} {placements : List (N × ℕ)} {nodeIds : List N} {rank : ℕ}
  {d : Deployment N}

theorem placement_sub {p : N × ℕ} :
    Sub s (if calls.reclaims p.1 then
      s.pruneStrataDataVolumes calls.refuses p.1 (memberKey record p.2) "" else s.fail p.1) := by
  split
  · exact prune_sub
  · exact fail_sub p.1

theorem pruneMember_sub (s : State N) (calls : Calls N) (record : String)
    (placements : List (N × ℕ)) :
    Sub s (s.pruneStrataMemberVolumes calls record placements) := by
  induction placements generalizing s with
  | nil => exact Sub.refl s
  | cons p placements ih => exact placement_sub.trans (ih _)

theorem pruneMember_containers :
    (s.pruneStrataMemberVolumes calls record placements).containers = s.containers := by
  induction placements generalizing s with
  | nil => rfl
  | cons p placements ih =>
    rw [State.pruneStrataMemberVolumes]
    rw [ih]
    split
    · rfl
    · rfl

theorem Kept.pruneMember (h : Kept P A s) (calls : Calls N) (hP : ∀ p ∈ placements, P p.1 (memberKey record p.2)) :
    Kept P A (s.pruneStrataMemberVolumes calls record placements) := by
  induction placements generalizing s with
  | nil => exact h
  | cons p placements ih =>
    refine ih ?_ fun q hq => hP q (List.mem_cons_of_mem p hq)
    split
    · exact h.prune (hP p List.mem_cons_self)
    · exact h.fail p.1

/-- Nothing has to account for the placements any more. -/
theorem pruneMember_dropped
    (h : Held (fun n k => A n k ∨ ∃ p ∈ placements, n = p.1 ∧ k = memberKey record p.2) s) :
    Held A (s.pruneStrataMemberVolumes calls record placements) := by
  induction placements generalizing s with
  | nil =>
    refine h.mono ?_
    rintro n k (ha | ⟨p, hp, -⟩)
    · exact ha
    · cases hp
  | cons p placements ih =>
    refine ih ?_
    have hsplit : Held (fun n k => (A n k ∨ ∃ q ∈ placements, n = q.1 ∧ k = memberKey record q.2) ∨
        n = p.1 ∧ k = memberKey record p.2) s := by
      refine h.mono ?_
      rintro n k (ha | ⟨q, hq, hn, hk⟩)
      · exact Or.inl (Or.inl ha)
      · rcases List.mem_cons.mp hq with rfl | hq
        · exact Or.inr ⟨hn, hk⟩
        · exact Or.inl (Or.inr ⟨q, hq, hn, hk⟩)
    split
    · exact prune_dropped hsplit
    · intro v hv
      rcases hsplit v hv with hf | hc | hA | ⟨hn, -⟩
      · exact Or.inl (List.mem_cons_of_mem _ hf)
      · exact Or.inr (Or.inl hc)
      · exact Or.inr (Or.inr hA)
      · rw [hn]
        exact Or.inl List.mem_cons_self

/-- A placement that is reclaimed leaves what its container has. -/
theorem pruneMember_settled (hp : (node, rank) ∈ placements) (hc : calls.reclaims node)
    (ha : Alone node (memberKey record rank) name s)
    (hr : ∀ v ∈ s.volumes, v.node = node → v.key = memberKey record rank →
      calls.refuses v = false) :
    Settled node (memberKey record rank) name
      (s.pruneStrataMemberVolumes calls record placements) := by
  induction placements generalizing s with
  | nil => cases hp
  | cons p placements ih =>
    rw [State.pruneStrataMemberVolumes]
    rcases List.mem_cons.mp hp with rfl | hp
    · rw [if_pos hc]
      refine Settled.kept (prune_settled ha hr fun v _ _ _ hname => absurd hname v.name_ne)
        (fun v hv => (pruneMember_sub _ _ _ _).volumes v hv) fun c hcon => ?_
      rw [pruneMember_containers]
      exact hcon
    · refine ih hp (ha.sub placement_sub) fun v hv => ?_
      exact hr v (placement_sub.volumes v hv)

theorem mem_recordPlacements (hi : nodeIds[rank]? = some node) :
    (node, rank) ∈ nodeIds.flatMap fun node =>
      (List.range nodeIds.length).map fun rank => (node, rank) := by
  refine List.mem_flatMap.mpr ⟨node, List.mem_of_getElem? hi, List.mem_map.mpr ⟨rank, ?_, rfl⟩⟩
  exact List.mem_range.mpr (List.getElem?_eq_some_iff.mp hi).1

/-! ## Members -/

/-- The container of a new member. -/
def Calls.container (calls : Calls N) (d : Deployment N) (m : Member N) : Container N :=
  ⟨m.node, .member d.id m.rank, d.key m.rank, calls.fingerprint m.node⟩

/-- Only the containers of these members and their volumes are made. -/
structure Launches (calls : Calls N) (d : Deployment N) (members : List (Member N))
    (s s' : State N) : Prop where
  containers : ∀ c ∈ s'.containers, c ∈ s.containers ∨ ∃ m ∈ members, c = calls.container d m
  volumes : ∀ v ∈ s'.volumes, v ∈ s.volumes ∨ ∃ m ∈ members, v = (calls.container d m).volume
  deployments : s'.deployments = s.deployments
  failed : ∀ n ∈ s.failed, n ∈ s'.failed

theorem createMembers_launches (s : State N) (calls : Calls N) (d : Deployment N)
    (members : List (Member N)) :
    Launches calls d members s (s.createMembers calls d members) := by
  induction members generalizing s with
  | nil => exact ⟨fun _ h => Or.inl h, fun _ h => Or.inl h, rfl, fun _ h => h⟩
  | cons m members ih =>
    have hg : Grows (calls.container d m).volume (calls.container d m) s
        (s.createStrataContainer calls.refuses (calls.made m.node) (calls.container d m)) :=
      create_grows _
    refine ⟨fun c hc => ?_, fun v hv => ?_, (ih _).deployments.trans hg.deployments, fun n hn =>
      (ih _).failed n (hg.failed n hn)⟩
    · rcases (ih _).containers c hc with hc | ⟨m', hm', rfl⟩
      · rcases hg.containers c hc with rfl | hc
        · exact Or.inr ⟨m, List.mem_cons_self, rfl⟩
        · exact Or.inl hc
      · exact Or.inr ⟨m', List.mem_cons_of_mem m hm', rfl⟩
    · rcases (ih _).volumes v hv with hv | ⟨m', hm', rfl⟩
      · rcases hg.volumes v hv with rfl | hv
        · exact Or.inr ⟨m, List.mem_cons_self, rfl⟩
        · exact Or.inl hv
      · exact Or.inr ⟨m', List.mem_cons_of_mem m hm', rfl⟩

theorem Kept.createMembers (h : Kept P A s) (calls : Calls N) (d : Deployment N)
    (members : List (Member N))
    (hm : ∀ m ∈ members, P m.node (d.key m.rank) ∧ A m.node (d.key m.rank) ∧
      ∀ k, P m.node k → (calls.container d m).volume.matches k → d.key m.rank = k) :
    Kept P A (s.createMembers calls d members) := by
  induction members generalizing s with
  | nil => exact h
  | cons m members ih =>
    obtain ⟨hP, hA, hv⟩ := hm m List.mem_cons_self
    refine ih (h.create (c := calls.container d m) hP hv fun _ => Or.inr hA) fun m' hm' => ?_
    exact hm m' (List.mem_cons_of_mem m hm')

theorem Labels.createMembers (h : Labels s) (calls : Calls N) (members : List (Member N))
    (hd : d ∈ s.deployments)
    (hid : ∀ d' ∈ s.deployments, d'.id = d.id → d' = d) :
    Labels (s.createMembers calls d members) := by
  induction members generalizing s with
  | nil => exact h
  | cons m members ih =>
    have hg : Grows (calls.container d m).volume (calls.container d m) s
        (s.createStrataContainer calls.refuses (calls.made m.node) (calls.container d m)) :=
      create_grows _
    refine ih (h.grows hg (fun c hc _ hname => h.member d hd c hc _ hname) ?_) ?_ ?_
    · intro d' hd' rank hname
      obtain ⟨hsame, hrank⟩ := ContainerName.member.inj hname
      rw [hid d' hd' hsame.symm, ← hrank]
      rfl
    · exact hg.deployments.symm ▸ hd
    · exact hg.deployments.symm ▸ hid

/-- A member that is created has all that is left of its key. -/
theorem createMembers_settled (s : State N) (hm : m ∈ members) (hnd : (members.map Member.node).Nodup)
    (hmade : calls.made m.node = .created)
    (ha : ∀ c ∈ s.containers, c.node = m.node → c.key ≠ d.key m.rank)
    (hr : ∀ v ∈ s.volumes, v.node = m.node → v.key = d.key m.rank → calls.refuses v = false)
    (hc : calls.refuses (calls.container d m).volume = false) :
    Settled m.node (d.key m.rank) (.member d.id m.rank) (s.createMembers calls d members) := by
  induction members generalizing s with
  | nil => cases hm
  | cons m' members ih =>
    rw [List.map_cons, List.nodup_cons] at hnd
    rcases List.mem_cons.mp hm with rfl | hm
    · have hhead : Settled m.node (d.key m.rank) (.member d.id m.rank)
          (s.createStrataContainer calls.refuses (calls.made m.node) (calls.container d m)) := by
        rw [hmade]
        exact create_settled (c := calls.container d m)
          (fun c hcon hn hk => absurd hk (ha c hcon hn)) hr hc
      have hrest : ∀ (l : List (Member N)) (t : State N), m.node ∉ l.map Member.node →
          Settled m.node (d.key m.rank) (.member d.id m.rank) t →
          Settled m.node (d.key m.rank) (.member d.id m.rank) (t.createMembers calls d l) := by
        intro l
        induction l with
        | nil => exact fun t _ h => h
        | cons x l ihl =>
          intro t hl h
          rw [List.map_cons, List.mem_cons, not_or] at hl
          exact ihl _ hl.2 (h.create (c := calls.container d x) fun he => hl.1 he.symm)
      exact hrest members _ hnd.1 hhead
    · have hne : m'.node ≠ m.node := fun he => hnd.1 (he ▸ List.mem_map_of_mem hm)
      have hg : Grows (calls.container d m').volume (calls.container d m') s
          (s.createStrataContainer calls.refuses (calls.made m'.node) (calls.container d m')) :=
        create_grows _
      refine ih _ hm hnd.2 (fun c hcon hn => ?_) fun v hv hn hk => ?_
      · rcases hg.containers c hcon with rfl | hcon
        · exact absurd hn hne
        · exact ha c hcon hn
      · rcases hg.volumes v hv with rfl | hv
        · exact absurd hn hne
        · exact hr v hv hn hk

/-! ## Deployments -/

/-- The nodes and keys of the members. -/
def Deployment.pairs (d : Deployment N) : List (N × String) :=
  d.members.map fun m => (m.node, d.key m.rank)

/-- Those of the placement of a record. -/
def placementPairs (record : String) (nodeIds : List N) : List (N × String) :=
  (strataReplacementRanks record nodeIds).map fun p => (p.1, memberKey record p.2)

/-- What a saved deployment addresses: its members, and the placement of its record. -/
def Deployment.addressed (d : Deployment N) : List (N × String) :=
  d.pairs ++ placementPairs d.record d.nodeIds

def Addressed (s : State N) (node : N) (key : String) : Prop :=
  ∃ d ∈ s.deployments, (node, key) ∈ d.addressed

/-- Another deployment addresses it. -/
def Elsewhere (s : State N) (id : String) (node : N) (key : String) : Prop :=
  ∃ d ∈ s.deployments, d.id ≠ id ∧ (node, key) ∈ d.addressed

theorem mem_placementPairs : (node, key) ∈ placementPairs record nodeIds ↔
    record ≠ "" ∧ ∃ rank, nodeIds[rank]? = some node ∧ key = memberKey record rank := by
  unfold placementPairs strataReplacementRanks
  by_cases hr : record = ""
  · rw [if_pos hr]
    simp [hr]
  · rw [if_neg hr, List.mem_map]
    constructor
    · rintro ⟨⟨n, rank⟩, hmem, he⟩
      cases he
      exact ⟨hr, rank, List.mk_mem_zipIdx_iff_getElem?.mp hmem, rfl⟩
    · rintro ⟨-, rank, hget, rfl⟩
      exact ⟨(node, rank), List.mk_mem_zipIdx_iff_getElem?.mpr hget, rfl⟩

theorem preserves_spec (h : preserves record nodeIds m) :
    record ≠ "" ∧ nodeIds[m.rank]? = some m.node := by
  have hl := of_decide_eq_true h
  obtain ⟨l₁, l₂, hl, -⟩ := List.lookup_eq_some_iff.mp hl
  have hmem : (m.node, m.rank) ∈ strataReplacementRanks record nodeIds := by
    rw [← List.mem_reverse, hl]
    exact List.mem_append_right _ List.mem_cons_self
  unfold strataReplacementRanks at hmem
  by_cases hr : record = ""
  · rw [if_pos hr] at hmem
    cases hmem
  · rw [if_neg hr] at hmem
    exact ⟨hr, List.mk_mem_zipIdx_iff_getElem?.mp hmem⟩

theorem key_record (h : d.record ≠ "") (rank : ℕ) : d.key rank = memberKey d.record rank := by
  unfold Deployment.key Deployment.owner
  rw [if_neg h]

theorem mem_new_members (h : m ∈ (calls.deployment record nodeIds).members) :
    nodeIds[m.rank]? = some m.node := by
  have hmem : m ∈ nodeIds.mapIdx fun rank node => (⟨node, rank⟩ : Member N) := by
    unfold Calls.deployment at h
    cases hs : calls.stage with
    | rejected | refused =>
      rw [hs] at h
      cases h
    | launched | killed =>
      rw [hs] at h
      exact h
  obtain ⟨i, hi, rfl⟩ := List.exists_of_mem_mapIdx hmem
  exact List.getElem?_eq_getElem hi

theorem new_members_of (record : String) (hs : calls.stage = .launched) (h : nodeIds[rank]? = some node) :
    (⟨node, rank⟩ : Member N) ∈ (calls.deployment record nodeIds).members := by
  obtain ⟨hi, rfl⟩ := List.getElem?_eq_some_iff.mp h
  unfold Calls.deployment
  rw [hs]
  exact List.mem_mapIdx.mpr ⟨rank, hi, rfl⟩

theorem new_members_nodup (hnd : nodeIds.Nodup) :
    ((calls.deployment record nodeIds).members.map Member.node).Nodup := by
  have hmap : (nodeIds.mapIdx fun rank node => (⟨node, rank⟩ : Member N)).map Member.node =
      nodeIds := by
    refine List.ext_getElem? fun i => ?_
    rw [List.getElem?_map, List.getElem?_mapIdx]
    cases nodeIds[i]? <;> rfl
  unfold Calls.deployment
  cases calls.stage with
  | rejected | refused => exact List.nodup_nil
  | launched | killed => exact hmap.symm ▸ hnd

theorem fresh_spec (h : s.fresh id) : (∀ d ∈ s.deployments, d.id ≠ id) ∧
    ∀ c ∈ s.containers, ∀ rank, c.name ≠ .member id rank := by
  unfold State.fresh at h
  rw [Bool.and_eq_true, List.all_eq_true, List.all_eq_true] at h
  refine ⟨fun d hd => of_decide_eq_true (h.1 d hd), fun c hc rank hname => ?_⟩
  have hb := h.2 c hc
  rw [hname] at hb
  exact of_decide_eq_true hb rfl

/-- What is known of the new deployment. -/
structure NewMembers (P : N → String → Prop) (calls : Calls N) (record : String)
    (nodeIds : List N) : Prop where
  pruned : ∀ m ∈ (calls.deployment record nodeIds).members,
    P m.node ((calls.deployment record nodeIds).key m.rank)
  apart : ∀ m ∈ (calls.deployment record nodeIds).members, ∀ k, P m.node k →
    (calls.container (calls.deployment record nodeIds) m).volume.matches k →
      (calls.deployment record nodeIds).key m.rank = k

/-- `create_deployment` appends the record, or does nothing. -/
theorem createDeployment_spec (h : Kept P A s) (hl : Labels s) (hf : s.fresh calls.id)
    (hn : NewMembers P calls record nodeIds) :
    Kept P (fun n k => A n k ∨ (n, k) ∈ (calls.deployment record nodeIds).addressed)
        (s.createDeployment calls record nodeIds).1 ∧
      Labels (s.createDeployment calls record nodeIds).1 ∧
      (calls.stage = .rejected ∧ (s.createDeployment calls record nodeIds).1 = s ∨
        calls.stage ≠ .rejected ∧ (s.createDeployment calls record nodeIds).1.deployments =
          s.deployments ++ [calls.deployment record nodeIds]) := by
  obtain ⟨hids, hnames⟩ := fresh_spec hf
  have hA : Kept P (fun n k => A n k ∨ (n, k) ∈ (calls.deployment record nodeIds).addressed) s :=
    ⟨h.own, h.apart, h.held.mono fun _ _ ha => Or.inl ha⟩
  generalize hd : calls.deployment record nodeIds = d at hA hn ⊢
  have hdid : d.id = calls.id := by
    rw [← hd]
    rfl
  have hsaved : Kept P (fun n k => A n k ∨ (n, k) ∈ d.addressed)
      { s with deployments := s.deployments ++ [d] } := ⟨hA.own, hA.apart, hA.held⟩
  have hlsaved : Labels { s with deployments := s.deployments ++ [d] } := by
    refine ⟨hl.unique, fun d' hd' c hc rank hname => ?_⟩
    rcases List.mem_append.mp hd' with hd' | hd'
    · exact hl.member d' hd' c hc rank hname
    · rw [List.mem_singleton.mp hd', hdid] at hname
      exact absurd hname (hnames c hc rank)
  have hmem : d ∈ ({ s with deployments := s.deployments ++ [d] } : State N).deployments :=
    List.mem_append_right _ List.mem_cons_self
  have hid : ∀ d' ∈ ({ s with deployments := s.deployments ++ [d] } : State N).deployments,
      d'.id = d.id → d' = d := by
    intro d' hd' hsame
    rcases List.mem_append.mp hd' with hd' | hd'
    · exact absurd (hsame.trans hdid) (hids d' hd')
    · exact List.mem_singleton.mp hd'
  have hpairs : ∀ m ∈ d.members, (m.node, d.key m.rank) ∈ d.addressed := fun m hm =>
    List.mem_append_left _ (List.mem_map_of_mem hm)
  have hlaunched := hsaved.createMembers calls d d.members
    fun m hm => ⟨hd ▸ hn.pruned m (hd ▸ hm), Or.inr (hpairs m hm), fun k hk hmt =>
      hd ▸ hn.apart m (hd ▸ hm) k hk (hd ▸ hmt)⟩
  have hllaunched := hlsaved.createMembers calls d.members hmem hid
  have hframe := createMembers_launches { s with deployments := s.deployments ++ [d] } calls d
    d.members
  unfold State.createDeployment
  rw [hd]
  cases hs : calls.stage with
  | rejected => exact ⟨hA, hl, Or.inl ⟨rfl, rfl⟩⟩
  | refused => exact ⟨hsaved, hlsaved, Or.inr ⟨by decide, rfl⟩⟩
  | killed => exact ⟨hlaunched, hllaunched, Or.inr ⟨by decide, hframe.deployments⟩⟩
  | launched =>
    dsimp only
    split
    · exact ⟨hlaunched, hllaunched, Or.inr ⟨by decide, hframe.deployments⟩⟩
    · refine ⟨hlaunched.removeMembers (K := fun m => d.key m.rank) ?_,
        hllaunched.sub removeMembers_sub,
        Or.inr ⟨by decide, removeMembers_sub.deployments.trans hframe.deployments⟩⟩
      intro m hm c hc _ hname
      have hmd := List.mem_of_mem_filter hm
      have hkey : c.key = d.key m.rank :=
        hllaunched.member d (hframe.deployments ▸ hmem) c hc m.rank hname
      refine ⟨hkey, ?_, nofun⟩
      rw [hkey]
      exact hd ▸ hn.pruned m (hd ▸ hmd)

/-! ## When the volumes are reclaimed exactly -/

/-- No volume has the prefix of a key that is pruned where it is, unless the key is its own. -/
def ApartOf (pairs : List (N × String)) (volumes : List (Volume N)) : Prop :=
  ∀ p ∈ pairs, ∀ v ∈ volumes, v.node = p.1 → v.matches p.2 → v.key = p.2

/-- No volume is addressed by the deployment `id` alone, but for those of the placement. -/
def Tidy (s : State N) (id : String) (placement : List (N × String)) : Prop :=
  Held (fun n k => Elsewhere s id n k ∨ (n, k) ∈ placement) s

/-- The volumes that a new deployment may make. -/
def launchVolumes (calls : Calls N) (record : String) (nodeIds : List N) : List (Volume N) :=
  (calls.deployment record nodeIds).members.map fun m =>
    (calls.container (calls.deployment record nodeIds) m).volume

/-- `prune_strata_record_volumes` prunes these. -/
def recordPairs (record : String) (nodeIds : List N) : List (N × String) :=
  if record = "" then []
  else nodeIds.flatMap fun node =>
    (List.range nodeIds.length).map fun rank => (node, memberKey record rank)

/-- What a relaunch prunes. -/
def relaunchPairs (calls : Calls N) (d : Deployment N) (nodeIds : List N) : List (N × String) :=
  d.pairs ++ ((calls.deployment d.record nodeIds).pairs ++ recordPairs d.record nodeIds)

/-- Where a volume is preserved, the removal is answered, the volumes of the key can be reclaimed,
and no other container has them. -/
def Reclaimable (s : State N) (calls : Calls N) (d : Deployment N) (nodeIds : List N) : Prop :=
  ∀ m ∈ d.members, preserves d.record nodeIds m → calls.removal m.node ≠ .failed →
    calls.removal m.node = .done ∧ calls.reclaims m.node ∧
      (∀ v ∈ s.volumes ++ launchVolumes calls d.record nodeIds, v.node = m.node →
        v.key = d.key m.rank → calls.refuses v = false) ∧
      ∀ c ∈ s.containers, c.node = m.node → c.key = d.key m.rank → c.name = .member d.id m.rank

/-- The condition of a relaunch. -/
structure PlainRelaunch (s : State N) (calls : Calls N) (d : Deployment N) (nodeIds : List N) :
    Prop where
  apart : ApartOf (relaunchPairs calls d nodeIds)
    (s.volumes ++ launchVolumes calls d.record nodeIds)
  tidy : (∀ m ∈ d.members, calls.removal m.node = .done) →
    Tidy s d.id (placementPairs d.record nodeIds)
  reclaimable : Reclaimable s calls d nodeIds

/-- The condition of a deletion. -/
structure PlainRemove (s : State N) (calls : Calls N) (d : Deployment N) : Prop where
  apart : ApartOf d.pairs s.volumes
  tidy : (∀ m ∈ d.members, calls.removal m.node = .done) → Tidy s d.id []

def Plain (s : State N) : Event N → Prop
  | .create record nodeIds calls =>
    ApartOf (calls.deployment record nodeIds).pairs
      (s.volumes ++ launchVolumes calls record nodeIds)
  | .relaunch id nodeIds calls =>
    match s.deployment id with
    | none => True
    | some d => PlainRelaunch s calls d (d.nodesOr nodeIds)
  | .resume id calls =>
    match s.deployment id with
    | none => True
    | some d => PlainRelaunch s calls d d.nodeIds
  | .remove id calls =>
    match s.deployment id with
    | none => True
    | some d => PlainRemove s calls d
  | .launchAlone node name record calls =>
    ApartOf [(node, aloneKey name record)]
        (s.volumes ++ [⟨node, aloneKey name record, calls.fingerprint node⟩]) ∧
      (calls.made node = .halfway →
        ⟨node, aloneKey name record, calls.fingerprint node⟩ ∈ s.volumes)
  | .removeAlone node name _ =>
    ∀ c ∈ s.containers, c.node = node → c.name = .alone name → ApartOf [(node, c.key)] s.volumes

/-- The volumes are reclaimed exactly. -/
structure Exact (s : State N) : Prop where
  /-- What was reclaimed was reclaimed for its own key. -/
  own : ∀ p ∈ s.reclaimed, p.2.key = p.1
  /-- Where the last relaunch preserved a volume, there is none but that of the replacement. -/
  preserved : ∀ p ∈ s.preserved, Settled p.1 p.2.1 p.2.2 s
  /-- Where no removal has failed, a container or a saved deployment addresses each volume. -/
  addressed : ∀ v ∈ s.volumes, v.node ∉ s.failed →
    (∃ c ∈ s.containers, c.node = v.node ∧ c.key = v.key) ∨
      ∃ d ∈ s.deployments, (v.node, v.key) ∈ d.addressed

/-- The invariant. -/
structure Inv (s : State N) : Prop where
  own : Own s
  held : Held (Addressed s) s
  labels : Labels s
  preserved : ∀ p ∈ s.preserved, Settled p.1 p.2.1 p.2.2 s

theorem Inv.exact (h : Inv s) : Exact s :=
  { h with
    addressed v hv hf := by
      rcases h.held v hv with hf' | hc | ha
      · exact absurd hf' hf
      · exact Or.inl hc
      · exact Or.inr ha }

theorem init_inv : Inv (init N) where
  own p hp := by cases hp
  held v hv := by cases hv
  labels :=
    { unique := fun c hc => by cases hc
      member := fun d hd => by cases hd }
  preserved p hp := by cases hp

variable {pairs : List (N × String)} {volumes : List (Volume N)}

/-- The keys that are pruned. -/
def Among (pairs : List (N × String)) (node : N) (key : String) : Prop := (node, key) ∈ pairs

theorem ApartOf.apart (h : ApartOf pairs (s.volumes ++ volumes)) : Apart (Among pairs) s :=
  fun v hv k hk hm => h (v.node, k) hk v (List.mem_append_left _ hv) rfl hm

theorem ApartOf.newMembers (h : ApartOf pairs (s.volumes ++ launchVolumes calls record nodeIds))
    (hp : ∀ p ∈ (calls.deployment record nodeIds).pairs, p ∈ pairs) :
    NewMembers (Among pairs) calls record nodeIds where
  pruned _ hm := hp _ (List.mem_map_of_mem hm)
  apart m hm k hk hmt :=
    h (m.node, k) hk _ (List.mem_append_right _ (List.mem_map_of_mem hm)) rfl hmt

/-- The containers of the members that are removed. -/
theorem member_containers (hl : Labels s) (hd : d ∈ s.deployments) {preserve : Member N → Bool}
    (hp : ∀ m ∈ d.members, P m.node (d.key m.rank))
    (ha : ∀ m ∈ d.members, preserve m → A m.node (d.key m.rank)) :
    ∀ m ∈ d.members, ∀ c ∈ s.containers, c.node = m.node → c.name = .member d.id m.rank →
      c.key = d.key m.rank ∧ P m.node c.key ∧ (preserve m → A m.node c.key) := by
  intro m hm c hc _ hname
  have hkey := hl.member d hd c hc m.rank hname
  rw [hkey]
  exact ⟨rfl, hp m hm, ha m hm⟩

theorem deployment_spec (h : s.deployment id = some d) : d ∈ s.deployments ∧ d.id = id :=
  ⟨List.mem_of_find?_eq_some h, by simpa using List.find?_some h⟩

theorem Inv.create (h : Inv s)
    (hp : ApartOf (calls.deployment record nodeIds).pairs
      (s.volumes ++ launchVolumes calls record nodeIds))
    (hf : s.fresh calls.id) :
    Inv { (s.createDeployment calls record nodeIds).1 with preserved := [] } := by
  have hkept : Kept (Among (calls.deployment record nodeIds).pairs) (Addressed s) s :=
    ⟨h.own, hp.apart, h.held⟩
  obtain ⟨hk, hl, hcase⟩ := createDeployment_spec hkept h.labels hf (hp.newMembers fun p hp => hp)
  refine ⟨hk.own, ?_, ⟨hl.unique, hl.member⟩, fun p hp => by cases hp⟩
  rcases hcase with ⟨-, hsame⟩ | ⟨-, hdep⟩
  · rw [hsame]
    exact h.held
  · refine hk.held.mono fun n k hor => ?_
    unfold Addressed
    rw [hdep]
    rcases hor with ⟨d, hd, hmem⟩ | hmem
    · exact ⟨d, List.mem_append_left _ hd, hmem⟩
    · exact ⟨_, List.mem_append_right _ List.mem_cons_self, hmem⟩

/-! ## Relaunches -/

theorem mem_answers {a : Member N × Answer}
    (h : a ∈ (s.removeMembers refuses removal preserveOf id members).2) : a.1 ∈ members := by
  induction members generalizing s with
  | nil => cases h
  | cons m members ih =>
    rcases List.mem_cons.mp h with rfl | h
    · exact List.mem_cons_self
    · exact List.mem_cons_of_mem m (ih h)

theorem answers_of (s : State N) (refuses : Volume N → Bool) (removal : N → Removal)
    (preserveOf : Member N → Bool) (id : String) (hm : m ∈ members) :
    ∃ a, (m, a) ∈ (s.removeMembers refuses removal preserveOf id members).2 ∧
      (a = .error ↔ removal m.node ≠ .done) := by
  induction members generalizing s with
  | nil => cases hm
  | cons m' members ih =>
    rcases List.mem_cons.mp hm with rfl | hm
    · exact ⟨_, List.mem_cons_self, remove_error⟩
    · obtain ⟨a, ha, hiff⟩ := ih _ hm
      exact ⟨a, List.mem_cons_of_mem _ ha, hiff⟩

theorem pruneRecord_sub (s : State N) (calls : Calls N) (record : String) (nodeIds : List N) :
    Sub s (s.pruneStrataRecordVolumes calls record nodeIds) := by
  unfold State.pruneStrataRecordVolumes
  split
  · exact Sub.refl s
  · exact pruneMember_sub s calls record _

theorem mem_recordPairs : (node, key) ∈ recordPairs record nodeIds ↔ record ≠ "" ∧
    ∃ p ∈ nodeIds.flatMap (fun node => (List.range nodeIds.length).map fun rank => (node, rank)),
      node = p.1 ∧ key = memberKey record p.2 := by
  unfold recordPairs
  by_cases hr : record = ""
  · rw [if_pos hr]
    simp [hr]
  · rw [if_neg hr]
    constructor
    · intro h
      obtain ⟨n, hn, h⟩ := List.mem_flatMap.mp h
      obtain ⟨rank, hrank, he⟩ := List.mem_map.mp h
      obtain ⟨rfl, rfl⟩ := Prod.mk.inj he
      exact ⟨hr, (n, rank), List.mem_flatMap.mpr ⟨n, hn, List.mem_map.mpr ⟨rank, hrank, rfl⟩⟩,
        rfl, rfl⟩
    · rintro ⟨-, p, hp, rfl, rfl⟩
      obtain ⟨n, hn, hp⟩ := List.mem_flatMap.mp hp
      obtain ⟨rank, hrank, rfl⟩ := List.mem_map.mp hp
      exact List.mem_flatMap.mpr ⟨n, hn, List.mem_map.mpr ⟨rank, hrank, rfl⟩⟩

theorem placement_record (h : (node, key) ∈ placementPairs record nodeIds) :
    (node, key) ∈ recordPairs record nodeIds := by
  obtain ⟨hr, rank, hget, rfl⟩ := mem_placementPairs.mp h
  exact mem_recordPairs.mpr ⟨hr, (node, rank), mem_recordPlacements hget, rfl, rfl⟩

theorem Kept.pruneRecord (h : Kept P A s) (calls : Calls N) (hP : ∀ n k, (n, k) ∈ recordPairs record nodeIds → P n k) :
    Kept P A (s.pruneStrataRecordVolumes calls record nodeIds) := by
  unfold State.pruneStrataRecordVolumes
  split
  case isTrue => exact h
  case isFalse hr =>
    exact h.pruneMember calls fun p hp => hP _ _ (mem_recordPairs.mpr ⟨hr, p, hp, rfl, rfl⟩)

/-- Nothing has to account for the placement any more. -/
theorem pruneRecord_dropped
    (h : Held (fun n k => A n k ∨ (n, k) ∈ placementPairs record nodeIds) s) :
    Held A (s.pruneStrataRecordVolumes calls record nodeIds) := by
  unfold State.pruneStrataRecordVolumes
  split
  case isTrue hr =>
    refine h.mono ?_
    rintro n k (ha | hp)
    · exact ha
    · exact absurd hr (mem_placementPairs.mp hp).1
  case isFalse =>
    refine pruneMember_dropped (h.mono ?_)
    rintro n k (ha | hp)
    · exact Or.inl ha
    · exact Or.inr (mem_recordPairs.mp (placement_record hp)).2

theorem pruneRecord_settled (hr : record ≠ "") (hi : nodeIds[rank]? = some node)
    (hc : calls.reclaims node) (ha : Alone node (memberKey record rank) name s)
    (hv : ∀ v ∈ s.volumes, v.node = node → v.key = memberKey record rank →
      calls.refuses v = false) :
    Settled node (memberKey record rank) name
      (s.pruneStrataRecordVolumes calls record nodeIds) := by
  unfold State.pruneStrataRecordVolumes
  rw [if_neg hr]
  exact pruneMember_settled (mem_recordPlacements hi) hc ha hv

/-- What `create_deployment` may make. -/
theorem createDeployment_launches :
    (∀ c ∈ (s.createDeployment calls record nodeIds).1.containers, c ∈ s.containers ∨
      ∃ m ∈ (calls.deployment record nodeIds).members,
        c = calls.container (calls.deployment record nodeIds) m) ∧
    ∀ v ∈ (s.createDeployment calls record nodeIds).1.volumes, v ∈ s.volumes ∨
      v ∈ launchVolumes calls record nodeIds := by
  have hl := createMembers_launches
    { s with deployments := s.deployments ++ [calls.deployment record nodeIds] } calls
    (calls.deployment record nodeIds) (calls.deployment record nodeIds).members
  have hvol : ∀ v ∈ (({ s with
        deployments := s.deployments ++ [calls.deployment record nodeIds] } : State N).createMembers
      calls (calls.deployment record nodeIds) (calls.deployment record nodeIds).members).volumes,
      v ∈ s.volumes ∨ v ∈ launchVolumes calls record nodeIds := by
    intro v hv
    rcases hl.volumes v hv with hv | ⟨m, hm, rfl⟩
    · exact Or.inl hv
    · exact Or.inr (List.mem_map_of_mem hm)
  unfold State.createDeployment
  dsimp only
  split
  · exact ⟨fun c hc => Or.inl hc, fun v hv => Or.inl hv⟩
  · exact ⟨fun c hc => Or.inl hc, fun v hv => Or.inl hv⟩
  · exact ⟨hl.containers, hvol⟩
  · split
    · exact ⟨hl.containers, hvol⟩
    · exact ⟨fun c hc => hl.containers c (removeMembers_sub.containers c hc),
        fun v hv => hvol v (removeMembers_sub.volumes v hv)⟩

/-- It returns if every member is created. -/
theorem createDeployment_ok (h : (s.createDeployment calls record nodeIds).2 = some true) :
    calls.stage = .launched ∧
      (∀ m ∈ (calls.deployment record nodeIds).members, calls.made m.node = .created) ∧
      (s.createDeployment calls record nodeIds).1 =
        ({ s with deployments := s.deployments ++ [calls.deployment record nodeIds] } :
          State N).createMembers calls (calls.deployment record nodeIds)
            (calls.deployment record nodeIds).members := by
  unfold State.createDeployment at h ⊢
  dsimp only at h ⊢
  cases hs : calls.stage with
  | rejected | refused | killed =>
    rw [hs] at h
    cases h
  | launched =>
    rw [hs] at h
    dsimp only at h ⊢
    split
    case isTrue hall =>
      refine ⟨rfl, fun m hm => ?_, rfl⟩
      exact of_decide_eq_true (List.all_eq_true.mp hall m hm)
    case isFalse hall =>
      rw [if_neg hall] at h
      cases h

/-- The members of `d` are removed. -/
structure Removed (calls : Calls N) (d : Deployment N) (s t : State N) : Prop where
  volumes : ∀ v ∈ t.volumes, v ∈ s.volumes
  containers : ∀ c ∈ t.containers, c ∈ s.containers
  gone : ∀ m ∈ d.members, calls.removal m.node = .done → ∀ c ∈ t.containers,
    ¬(c.node = m.node ∧ c.name = .member d.id m.rank)

theorem removeMembers_removed : Removed calls d s
    (s.removeMembers calls.refuses calls.removal preserveOf d.id d.members).1 :=
  { removeMembers_sub with
    gone _ hm hdone _ hc := removeMembers_gone hm hdone hc }

/-- What is known of a place where a volume is preserved. -/
structure Place (calls : Calls N) (d : Deployment N) (nodeIds : List N) (t : State N)
    (node : N) (key : String) (rank : ℕ) : Prop where
  member : (⟨node, rank⟩ : Member N) ∈ d.members
  recorded : d.record ≠ ""
  keyed : key = memberKey d.record rank
  indexed : nodeIds[rank]? = some node
  kept : preserves d.record nodeIds ⟨node, rank⟩
  done : calls.removal node = .done
  reclaims : calls.reclaims node
  removable : ∀ v, v ∈ t.volumes ∨ v ∈ launchVolumes calls d.record nodeIds → v.node = node →
    v.key = key → calls.refuses v = false
  empty : ∀ c ∈ t.containers, c.node = node → c.key ≠ key

variable {p : N × String × ContainerName}

theorem Reclaimable.place (h : Reclaimable s calls d nodeIds) (ht : Removed calls d s t)
    (hp : p ∈ d.preserved calls nodeIds) :
    ∃ rank, Place calls d nodeIds t p.1 p.2.1 rank ∧ p.2.2 = .member calls.id rank := by
  obtain ⟨m, hm, rfl⟩ := List.mem_map.mp hp
  obtain ⟨hmem, hb⟩ := List.mem_filter.mp hm
  rw [Bool.and_eq_true, decide_eq_true_eq] at hb
  obtain ⟨hrec, hidx⟩ := preserves_spec hb.1
  obtain ⟨hdone, hreclaims, hrefuses, halone⟩ := h m hmem hb.1 hb.2
  have hkey := key_record hrec m.rank
  rw [hkey] at hrefuses halone
  refine ⟨m.rank,
    { member := hmem
      recorded := hrec
      keyed := rfl
      indexed := hidx
      kept := hb.1
      done := hdone
      reclaims := hreclaims
      removable := ?_
      empty := ?_ }, rfl⟩
  · rintro v (hv | hv)
    · exact hrefuses v (List.mem_append_left _ (ht.volumes v hv))
    · exact hrefuses v (List.mem_append_right _ hv)
  · intro c hc hn hk
    exact ht.gone m hmem hdone c hc ⟨hn, halone c (ht.containers c hc) hn hk⟩

/-- The replacement takes the volume. -/
theorem Place.created (h : Place calls d nodeIds t node key rank) (hnd : nodeIds.Nodup)
    (hok : (t.createDeployment calls d.record nodeIds).2 = some true) :
    Settled node key (.member calls.id rank) (t.createDeployment calls d.record nodeIds).1 := by
  obtain ⟨hstage, hmade, heq⟩ := createDeployment_ok hok
  have hmem := new_members_of d.record hstage h.indexed
  have hkey : (calls.deployment d.record nodeIds).key rank = key := by
    rw [h.keyed]
    exact key_record (d := calls.deployment d.record nodeIds) h.recorded rank
  have hset := createMembers_settled
    { t with deployments := t.deployments ++ [calls.deployment d.record nodeIds] } hmem (new_members_nodup hnd) (hmade _ hmem)
    (fun c hc hn hk => h.empty c hc hn (hk.trans hkey))
    (fun v hv hn hk => h.removable v (Or.inl hv) hn (hk.trans hkey))
    (h.removable _ (Or.inr (List.mem_map_of_mem hmem)) rfl hkey)
  rw [heq, ← hkey]
  exact hset

/-- Only a member of the replacement can have a container there. -/
theorem Place.alone (h : Place calls d nodeIds t node key rank) (hnd : nodeIds.Nodup) :
    Alone node key (.member calls.id rank) (t.createDeployment calls d.record nodeIds).1 := by
  intro c hc hn hk
  rcases createDeployment_launches.1 c hc with hc | ⟨m, hm, rfl⟩
  · exact absurd hk (h.empty c hc hn)
  · have hi := mem_new_members hm
    rw [show m.node = node from hn] at hi
    have hrank : m.rank = rank :=
      (List.getElem?_inj (List.getElem?_eq_some_iff.mp hi).1 hnd).mp (hi.trans h.indexed.symm)
    change ContainerName.member calls.id m.rank = _
    rw [hrank]

/-- The volumes are reclaimed when the replacement fails. -/
theorem Place.pruned (h : Place calls d nodeIds t node key rank) (hnd : nodeIds.Nodup) :
    Settled node key (.member calls.id rank)
      ((t.createDeployment calls d.record nodeIds).1.pruneStrataRecordVolumes calls d.record
        nodeIds) := by
  have halone := h.alone hnd
  rw [h.keyed] at halone ⊢
  refine pruneRecord_settled h.recorded h.indexed h.reclaims halone fun v hv hn hk => ?_
  rcases createDeployment_launches.2 v hv with hv | hv
  · exact h.removable v (Or.inl hv) hn (hk.trans h.keyed.symm)
  · exact h.removable v (Or.inr hv) hn (hk.trans h.keyed.symm)

/-- They are reclaimed when the relaunch is aborted. -/
theorem Place.aborted (h : Place calls d nodeIds t node key rank)
    (hp : (node, rank) ∈ placements) :
    Settled node key (.member calls.id rank)
      (t.pruneStrataMemberVolumes calls d.record placements) := by
  rw [h.keyed]
  refine pruneMember_settled hp h.reclaims (fun c hc hn hk => ?_) fun v hv hn hk => ?_
  · exact absurd (hk.trans h.keyed.symm) (h.empty c hc hn)
  · exact h.removable v (Or.inl hv) hn (hk.trans h.keyed.symm)

theorem Place.placement (h : Place calls d nodeIds t node key rank) :
    (node, rank) ∈ abortedPlacements d.record nodeIds
      (s.removeMembers refuses calls.removal preserveOf id d.members).2 := by
  obtain ⟨a, ha, hiff⟩ := answers_of s refuses calls.removal preserveOf id h.member
  refine List.mem_map.mpr ⟨_, List.mem_filter.mpr ⟨ha, ?_⟩, rfl⟩
  rw [h.kept, Bool.true_and, decide_eq_true_eq]
  exact fun he => hiff.mp he h.done

/-! ## Steps -/

theorem pairs_pruned (hm : m ∈ d.members) :
    Among (relaunchPairs calls d nodeIds) m.node (d.key m.rank) :=
  List.mem_append_left _ (List.mem_map_of_mem hm)

theorem preserved_placement (h : preserves d.record nodeIds m) :
    (m.node, d.key m.rank) ∈ placementPairs d.record nodeIds := by
  obtain ⟨hr, hi⟩ := preserves_spec h
  exact mem_placementPairs.mpr ⟨hr, m.rank, hi, key_record hr m.rank⟩

theorem member_addressed (hm : m ∈ d.members) : (m.node, d.key m.rank) ∈ d.addressed :=
  List.mem_append_left _ (List.mem_map_of_mem hm)

/-- What the removals do. -/
theorem PlainRelaunch.removed (hp : PlainRelaunch s calls d nodeIds) (h : Inv s)
    (hd : d ∈ s.deployments) (hA : Held A s)
    (hkeep : ∀ m ∈ d.members, preserves d.record nodeIds m → A m.node (d.key m.rank)) :
    Kept (Among (relaunchPairs calls d nodeIds)) A
      (s.removeMembers calls.refuses calls.removal (preserves d.record nodeIds) d.id
        d.members).1 :=
  Kept.removeMembers (K := fun m => d.key m.rank) ⟨h.own, hp.apart.apart, hA⟩
    (member_containers h.labels hd (fun _ hm => pairs_pruned hm) hkeep)

/-- What is reclaimed when the removals fail is among the members. -/
theorem aborted_pruned {p : N × ℕ}
    (hp : p ∈ abortedPlacements d.record nodeIds
      (s.removeMembers refuses removal preserveOf id d.members).2) :
    Among (relaunchPairs calls d nodeIds) p.1 (memberKey d.record p.2) := by
  obtain ⟨a, ha, rfl⟩ := List.mem_map.mp hp
  obtain ⟨hmem, hb⟩ := List.mem_filter.mp ha
  rw [Bool.and_eq_true] at hb
  rw [← key_record (preserves_spec hb.1).1]
  exact pairs_pruned (mem_answers hmem)

theorem record_pruned (hp : (node, key) ∈ recordPairs d.record nodeIds) :
    Among (relaunchPairs calls d nodeIds) node key :=
  List.mem_append_right _ (List.mem_append_right _ hp)

theorem PlainRelaunch.newMembers (hp : PlainRelaunch s calls d nodeIds) :
    NewMembers (Among (relaunchPairs calls d nodeIds)) calls d.record nodeIds :=
  hp.apart.newMembers fun _ hq => List.mem_append_right _ (List.mem_append_left _ hq)

variable {f : Deployment N → Deployment N}

theorem Labels.update (h : Labels s) (id : String) (hid : ∀ d, (f d).id = d.id)
    (hkey : ∀ d rank, (f d).key rank = d.key rank) : Labels (s.update id f) where
  unique := h.unique
  member d hd c hc rank hname := by
    obtain ⟨d', hd', rfl⟩ := List.mem_map.mp hd
    split at hname
    case isTrue he =>
      rw [if_pos he, hkey]
      rw [hid] at hname
      exact h.member d' hd' c hc rank hname
    case isFalse he =>
      rw [if_neg he]
      exact h.member d' hd' c hc rank hname

theorem Labels.drop (h : Labels s) (id : String) : Labels (s.drop id) where
  unique := h.unique
  member d hd c hc rank hname := h.member d (List.mem_of_mem_filter hd) c hc rank hname

theorem Addressed.update (h : Addressed s node key) (hf : ∀ d, (f d).addressed = d.addressed) :
    Addressed (s.update id f) node key := by
  obtain ⟨d, hd, hmem⟩ := h
  refine ⟨_, List.mem_map_of_mem hd, ?_⟩
  split
  · rw [hf]
    exact hmem
  · exact hmem

theorem update_fresh {id' : String} (h : s.fresh id) (hid : ∀ d, (f d).id = d.id) :
    (s.update id' f).fresh id := by
  unfold State.fresh State.update at *
  rw [Bool.and_eq_true] at h ⊢
  refine ⟨List.all_eq_true.mpr fun d hd => ?_, h.2⟩
  obtain ⟨d', hd', rfl⟩ := List.mem_map.mp hd
  have hne := List.all_eq_true.mp h.1 d' hd'
  split
  · rw [hid]
    exact hne
  · exact hne

theorem drop_fresh {id' : String} (h : s.fresh id) : (s.drop id').fresh id := by
  unfold State.fresh State.drop at *
  rw [Bool.and_eq_true] at h ⊢
  refine ⟨List.all_eq_true.mpr fun d hd => ?_, h.2⟩
  exact List.all_eq_true.mp h.1 d (List.mem_of_mem_filter hd)

theorem Sub.fresh (h : Sub s t) (hf : s.fresh id) : t.fresh id := by
  unfold State.fresh at *
  rw [Bool.and_eq_true] at hf ⊢
  refine ⟨by rw [h.deployments]; exact hf.1, List.all_eq_true.mpr fun c hc => ?_⟩
  exact List.all_eq_true.mp hf.2 c (h.containers c hc)

theorem not_error (h : ¬(d.members.any fun m => decide (calls.removal m.node ≠ .done))) :
    ∀ m ∈ d.members, calls.removal m.node = .done := by
  intro m hm
  by_contra hne
  exact h (List.any_eq_true.mpr ⟨m, hm, decide_eq_true hne⟩)

/-- The placement is addressed by the replacement. -/
theorem placement_addressed (h : (node, key) ∈ placementPairs record nodeIds) :
    (node, key) ∈ (calls.deployment record nodeIds).addressed :=
  List.mem_append_right _ h

variable {deployments : List (Deployment N)}

/-- After a replacement that was appended, every volume is accounted for. -/
theorem replaced_held {t : State N}
    (h : Held (fun n k => (Elsewhere s id n k ∨ (n, k) ∈ placementPairs record nodeIds) ∨ (n, k) ∈ (calls.deployment record nodeIds).addressed) t)
    (ho : ∀ d ∈ s.deployments, d.id ≠ id → d ∈ deployments)
    (hn : calls.deployment record nodeIds ∈ deployments) :
    Held (fun n k => ∃ d ∈ deployments, (n, k) ∈ d.addressed) t := by
  refine h.mono ?_
  rintro n k ((⟨d, hd, hne, hmem⟩ | hp) | hnew)
  · exact ⟨d, ho d hd hne, hmem⟩
  · exact ⟨_, hn, placement_addressed hp⟩
  · exact ⟨_, hn, hnew⟩

/-- The members are removed, and answered. -/
structure Phase (s : State N) (calls : Calls N) (d : Deployment N) (nodeIds : List N) (t : State N)
    (answers : List (Member N × Answer)) : Prop where
  sub : Sub s t
  removed : Removed calls d s t
  kept : ∀ A : N → String → Prop, Held A s →
    (∀ m ∈ d.members, preserves d.record nodeIds m → A m.node (d.key m.rank)) →
      Kept (Among (relaunchPairs calls d nodeIds)) A t
  error : (answers.any fun a => decide (a.2 = .error)) =
    d.members.any fun m => decide (calls.removal m.node ≠ .done)
  pruned : ∀ p ∈ abortedPlacements d.record nodeIds answers,
    Among (relaunchPairs calls d nodeIds) p.1 (memberKey d.record p.2)
  placement : ∀ u node key rank, Place calls d nodeIds u node key rank →
    (node, rank) ∈ abortedPlacements d.record nodeIds answers

theorem PlainRelaunch.phase (hp : PlainRelaunch s calls d nodeIds) (h : Inv s)
    (hd : d ∈ s.deployments) :
    Phase s calls d nodeIds
      (s.removeMembers calls.refuses calls.removal (preserves d.record nodeIds) d.id d.members).1
      (s.removeMembers calls.refuses calls.removal (preserves d.record nodeIds) d.id
        d.members).2 where
  sub := removeMembers_sub
  removed := removeMembers_removed
  kept _ hA hkeep := hp.removed h hd hA hkeep
  error := removeMembers_error
  pruned _ hp := aborted_pruned hp
  placement _ _ _ _ hplace := hplace.placement

/-- The state with other deployments. -/
structure Same (t u : State N) : Prop where
  volumes : u.volumes = t.volumes
  containers : u.containers = t.containers
  failed : u.failed = t.failed
  reclaimed : u.reclaimed = t.reclaimed

theorem Kept.same (h : Kept P A t) {u : State N} (hs : Same t u) : Kept P A u where
  own p hp := h.own p (hs.reclaimed ▸ hp)
  apart v hv := h.apart v (hs.volumes ▸ hv)
  held v hv := by
    rw [hs.failed, hs.containers]
    exact h.held v (hs.volumes ▸ hv)

theorem Removed.same (h : Removed calls d s t) {u : State N} (hs : Same t u) :
    Removed calls d s u where
  volumes v hv := h.volumes v (hs.volumes ▸ hv)
  containers c hc := h.containers c (hs.containers ▸ hc)
  gone m hm hdone c hc := h.gone m hm hdone c (hs.containers ▸ hc)

/-- The relaunch is aborted. -/
theorem Phase.aborted {answers : List (Member N × Answer)} (hph : Phase s calls d nodeIds t answers)
    (h : Inv s) (hd : d ∈ s.deployments) (hp : PlainRelaunch s calls d nodeIds) :
    Inv { (t.update d.id fun d => { d with interrupted := false }).pruneStrataMemberVolumes calls
      d.record (abortedPlacements d.record nodeIds answers) with
        preserved := d.preserved calls nodeIds } := by
  have hsame : Same t (t.update d.id fun d => { d with interrupted := false }) :=
    ⟨rfl, rfl, rfl, rfl⟩
  have hk := (hph.kept _ h.held fun m hm _ => ⟨d, hd, member_addressed hm⟩).same hsame
  have hpr := hk.pruneMember calls hph.pruned
  have hlab : Labels (t.update d.id fun d => { d with interrupted := false }) :=
    (h.labels.sub hph.sub).update d.id (fun _ => rfl) fun _ _ => rfl
  have hlab' := hlab.sub (pruneMember_sub _ calls d.record
    (abortedPlacements d.record nodeIds answers))
  refine ⟨hpr.own, hpr.held.mono fun n k ha => ?_, ⟨hlab'.unique, hlab'.member⟩, fun p hp' => ?_⟩
  · have hup : Addressed (t.update d.id fun d => { d with interrupted := false }) n k := by
      refine Addressed.update ?_ fun _ => rfl
      unfold Addressed
      rw [hph.sub.deployments]
      exact ha
    unfold Addressed
    rw [(pruneMember_sub _ _ _ _).deployments]
    exact hup
  · obtain ⟨rank, hplace, hname⟩ := hp.reclaimable.place (hph.removed.same hsame) hp'
    rw [hname]
    exact hplace.aborted (hph.placement _ _ _ _ hplace)

/-- The replacement is created from a state without the members. -/
structure Replacing (s : State N) (calls : Calls N) (d : Deployment N) (nodeIds : List N)
    (u : State N) : Prop where
  removed : Removed calls d s u
  kept : Kept (Among (relaunchPairs calls d nodeIds))
    (fun n k => Elsewhere s d.id n k ∨ (n, k) ∈ placementPairs d.record nodeIds) u
  labels : Labels u
  fresh : u.fresh calls.id
  others : ∀ d' ∈ s.deployments, d'.id ≠ d.id → d' ∈ u.deployments

/-- What the creation of the replacement leaves. -/
structure Replaced (s : State N) (calls : Calls N) (d : Deployment N) (nodeIds : List N)
    (u w : State N) : Prop where
  kept : Kept (Among (relaunchPairs calls d nodeIds))
    (fun n k => (Elsewhere s d.id n k ∨ (n, k) ∈ placementPairs d.record nodeIds) ∨
      (n, k) ∈ (calls.deployment d.record nodeIds).addressed) w
  labels : Labels w
  appended : calls.stage = .rejected ∧ w = u ∨
    calls.stage ≠ .rejected ∧ w.deployments = u.deployments ++ [calls.deployment d.record nodeIds]

variable {u : State N}

theorem Replacing.replaced (hu : Replacing s calls d nodeIds u)
    (hp : PlainRelaunch s calls d nodeIds) :
    Replaced s calls d nodeIds u (u.createDeployment calls d.record nodeIds).1 := by
  obtain ⟨hk, hl, hcase⟩ := createDeployment_spec hu.kept hu.labels hu.fresh hp.newMembers
  exact ⟨hk, hl, hcase⟩

/-- The volumes of a replacement that fails are reclaimed. -/
theorem Replacing.pruned (hu : Replacing s calls d nodeIds u) (hp : PlainRelaunch s calls d nodeIds)
    (ho : ∀ d' ∈ u.deployments, d'.id ≠ d.id → d' ∈ deployments)
    (hn : calls.stage ≠ .rejected → calls.deployment d.record nodeIds ∈ deployments) :
    Kept (Among (relaunchPairs calls d nodeIds)) (fun n k => ∃ d ∈ deployments,
      (n, k) ∈ d.addressed) ((u.createDeployment calls d.record nodeIds).1.pruneStrataRecordVolumes
        calls d.record nodeIds) := by
  have hr := hu.replaced hp
  have ho' : ∀ d' ∈ s.deployments, d'.id ≠ d.id → d' ∈ deployments := fun d' hd' hne =>
    ho d' (hu.others d' hd' hne) hne
  have hkept := hr.kept.pruneRecord calls fun n k (hmem : (n, k) ∈ recordPairs d.record nodeIds) =>
    record_pruned hmem
  refine ⟨hkept.own, hkept.apart, ?_⟩
  rcases hr.appended with ⟨-, hsame⟩ | ⟨hstage, -⟩
  · rw [hsame]
    refine (pruneRecord_dropped (A := Elsewhere s d.id) hu.kept.held).mono ?_
    rintro n k ⟨d', hd', hne, hmem⟩
    exact ⟨d', ho' d' hd' hne, hmem⟩
  · exact replaced_held hkept.held ho' (hn hstage)

theorem Replacing.settled (hu : Replacing s calls d nodeIds u) (hnd : nodeIds.Nodup)
    (hp : PlainRelaunch s calls d nodeIds) (hp' : p ∈ d.preserved calls nodeIds) :
    ((u.createDeployment calls d.record nodeIds).2 = some true →
        Settled p.1 p.2.1 p.2.2 (u.createDeployment calls d.record nodeIds).1) ∧
      Settled p.1 p.2.1 p.2.2 ((u.createDeployment calls d.record nodeIds).1.pruneStrataRecordVolumes
        calls d.record nodeIds) := by
  obtain ⟨rank, hplace, hname⟩ := hp.reclaimable.place hu.removed hp'
  rw [hname]
  exact ⟨hplace.created hnd, hplace.pruned hnd⟩

theorem stage_saved (h : (u.createDeployment calls record nodeIds).2 ≠ some false) :
    calls.stage ≠ .rejected := by
  intro hs
  unfold State.createDeployment at h
  rw [hs] at h
  exact h rfl

/-- The replacement that was appended accounts for the volumes. -/
theorem Replaced.held_mono {w : State N} (hr : Replaced s calls d nodeIds u w)
    (hu : Replacing s calls d nodeIds u) (hs : calls.stage ≠ .rejected)
    (ho : ∀ d' ∈ w.deployments, d'.id ≠ d.id → d' ∈ deployments) (hid : calls.id ≠ d.id) :
    Held (fun n k => ∃ d ∈ deployments, (n, k) ∈ d.addressed) w := by
  rcases hr.appended with ⟨hrej, -⟩ | ⟨-, hdep⟩
  · exact absurd hrej hs
  · refine replaced_held hr.kept.held (fun d' hd' hne => ho d' ?_ hne) (ho _ ?_ hid)
    · rw [hdep]
      exact List.mem_append_left _ (hu.others d' hd' hne)
    · rw [hdep]
      exact List.mem_append_right _ List.mem_cons_self

/-- A replacement that was saved, and has not failed, accounts for the volumes. -/
theorem Replacing.saved (hu : Replacing s calls d nodeIds u) (hp : PlainRelaunch s calls d nodeIds)
    (hid : calls.id ≠ d.id) {l : List (N × String × ContainerName)}
    (hok : (u.createDeployment calls d.record nodeIds).2 ≠ some false)
    (hset : ∀ p ∈ l, Settled p.1 p.2.1 p.2.2 (u.createDeployment calls d.record nodeIds).1) :
    Inv { (u.createDeployment calls d.record nodeIds).1 with preserved := l } :=
  have hr := hu.replaced hp
  ⟨hr.kept.own, hr.held_mono hu (stage_saved hok) (fun _ h _ => h) hid,
    ⟨hr.labels.unique, hr.labels.member⟩, hset⟩

/-- A record of the same id and the same keys is saved again. -/
theorem Labels.append (h : Labels u) (d' : Deployment N) (hl : Labels s) (hd : d ∈ s.deployments)
    (hc : ∀ c ∈ u.containers, c ∈ s.containers) (hid : d'.id = d.id)
    (hkey : ∀ rank, d'.key rank = d.key rank) :
    Labels { u with deployments := u.deployments ++ [d'] } where
  unique := h.unique
  member e he c hcon rank hname := by
    rcases Table.mem_snoc he with he | rfl
    · exact h.member e he c hcon rank hname
    · rw [hid] at hname
      rw [hkey]
      exact hl.member d hd c (hc c hcon) rank hname

/-- What the failed replacement leaves is accounted for by the records. -/
theorem Replacing.failed (hu : Replacing s calls d nodeIds u)
    (hp : PlainRelaunch s calls d nodeIds) :
    Kept (Among (relaunchPairs calls d nodeIds))
      (fun n k => ∃ e ∈ ((u.createDeployment calls d.record nodeIds).1.pruneStrataRecordVolumes calls
        d.record nodeIds).deployments, (n, k) ∈ e.addressed)
      ((u.createDeployment calls d.record nodeIds).1.pruneStrataRecordVolumes calls d.record
        nodeIds) := by
  have hr := hu.replaced hp
  rw [(pruneRecord_sub _ calls d.record nodeIds).deployments]
  refine hu.pruned hp (fun d' hd' _ => ?_) fun hs => ?_
  · rcases hr.appended with ⟨-, hsame⟩ | ⟨-, happ⟩
    · rw [hsame]
      exact hd'
    · rw [happ]
      exact List.mem_append_left _ hd'
  · rcases hr.appended with ⟨hrej, -⟩ | ⟨-, happ⟩
    · exact absurd hrej hs
    · rw [happ]
      exact List.mem_append_right _ List.mem_cons_self

/-- Every member was removed, and the record is out of the way. -/
theorem Phase.replacing {answers : List (Member N × Answer)} (hph : Phase s calls d nodeIds t answers)
    (hp : PlainRelaunch s calls d nodeIds) (hsame : Same t u) (hlab : Labels u)
    (hf : u.fresh calls.id) (herr : ¬(answers.any fun a => decide (a.2 = .error)))
    (ho : ∀ d' ∈ t.deployments, d'.id ≠ d.id → d' ∈ u.deployments) :
    Replacing s calls d nodeIds u where
  removed := hph.removed.same hsame
  kept := by
    rw [hph.error] at herr
    exact (hph.kept _ (hp.tidy (not_error herr)) fun m _ hpm =>
      Or.inr (preserved_placement hpm)).same hsame
  labels := hlab
  fresh := hf
  others d' hd' hne := ho d' (hph.sub.deployments ▸ hd') hne

theorem Inv.relaunch (h : Inv s) (hd : d ∈ s.deployments)
    (hp : PlainRelaunch s calls d nodeIds) (hnd : nodeIds.Nodup) (hf : s.fresh calls.id) :
    Inv (s.relaunch calls d nodeIds) := by
  have hph := hp.phase h hd
  unfold State.relaunch
  generalize hrm : s.removeMembers calls.refuses calls.removal (preserves d.record nodeIds) d.id
    d.members = removed at hph ⊢
  obtain ⟨t, answers⟩ := removed
  dsimp only at hph ⊢
  by_cases herr : (answers.any fun a => decide (a.2 = .error))
  · rw [if_pos herr]
    exact hph.aborted h hd hp
  · rw [if_neg herr]
    have hu : Replacing s calls d nodeIds
        (t.update d.id fun d => { d with members := [], interrupted := false }) :=
      hph.replacing hp ⟨rfl, rfl, rfl, rfl⟩
        ((h.labels.sub hph.sub).update d.id (fun _ => rfl) fun _ _ => rfl)
        (update_fresh (hph.sub.fresh hf) fun _ => rfl) herr
        fun d' hd' hne => List.mem_map.mpr ⟨d', hd', if_neg hne⟩
    generalize (t.update d.id fun d => { d with members := [], interrupted := false }) = u at hu ⊢
    have hr := hu.replaced hp
    have hid : calls.id ≠ d.id := fun he => (fresh_spec hf).1 d hd he.symm
    cases hok : (u.createDeployment calls d.record nodeIds).2 with
    | none => exact hu.saved hp hid (by rw [hok]; exact nofun) fun p hp => by cases hp
    | some ok =>
      cases ok with
      | true =>
        have hs := stage_saved (by rw [hok]; exact nofun)
        have hlab := hr.labels.drop d.id
        refine ⟨hr.kept.own, hr.held_mono hu hs (fun d' h hne => ?_) hid, ⟨hlab.unique, hlab.member⟩,
          fun p hp' => (hu.settled hnd hp hp').1 hok⟩
        exact List.mem_filter.mpr ⟨h, decide_eq_true hne⟩
      | false =>
        have hlab := hr.labels.sub (pruneRecord_sub _ calls d.record nodeIds)
        have hpr := hu.failed hp
        exact ⟨hpr.own, hpr.held, ⟨hlab.unique, hlab.member⟩,
          fun p hp' => (hu.settled hnd hp hp').2⟩

/-- The record of an interrupted launch accounts for its placement. -/
theorem Replacing.resaved (hu : Replacing s calls d d.nodeIds u) {w : State N}
    (d' : Deployment N) (hd' : d'.addressed = d.addressed) (hs : Sub u w)
    (hk : Kept P (fun n k => Elsewhere s d.id n k ∨ (n, k) ∈ placementPairs d.record d.nodeIds) w) :
    Kept P (fun n k => ∃ e ∈ w.deployments ++ [d'], (n, k) ∈ e.addressed) w := by
  refine ⟨hk.own, hk.apart, hk.held.mono ?_⟩
  rintro n k (⟨e, he, hne, hmem⟩ | hpl)
  · refine ⟨e, List.mem_append_left _ ?_, hmem⟩
    rw [hs.deployments]
    exact hu.others e he hne
  · refine ⟨d', List.mem_append_right _ List.mem_cons_self, ?_⟩
    rw [hd']
    exact List.mem_append_right _ hpl

theorem Inv.resume (h : Inv s) (hd : d ∈ s.deployments)
    (hp : PlainRelaunch s calls d d.nodeIds) (hnd : d.nodeIds.Nodup)
    (hf : s.fresh calls.id) : Inv (s.resume calls d) := by
  have hph := hp.phase h hd
  unfold State.resume
  generalize hrm : s.removeMembers calls.refuses calls.removal (preserves d.record d.nodeIds) d.id
    d.members = removed at hph ⊢
  obtain ⟨t, answers⟩ := removed
  dsimp only at hph ⊢
  by_cases herr : (answers.any fun a => decide (a.2 = .error))
  · rw [if_pos herr]
    by_cases hrc : calls.reconnecting
    · rw [if_pos hrc]
      have hk := hph.kept _ h.held fun m hm _ => ⟨d, hd, member_addressed hm⟩
      have hlab := h.labels.sub hph.sub
      refine ⟨hk.own, hk.held.mono fun n k ha => ?_, ⟨hlab.unique, hlab.member⟩,
        fun p hp => by cases hp⟩
      rw [hph.sub.deployments]
      exact ha
    · rw [if_neg hrc]
      exact hph.aborted h hd hp
  · rw [if_neg herr]
    have hu : Replacing s calls d d.nodeIds (t.drop d.id) :=
      hph.replacing hp ⟨rfl, rfl, rfl, rfl⟩ ((h.labels.sub hph.sub).drop d.id)
        (drop_fresh (hph.sub.fresh hf)) herr
        fun d' hd' hne => List.mem_filter.mpr ⟨hd', decide_eq_true hne⟩
    generalize t.drop d.id = u at hu ⊢
    have hr := hu.replaced hp
    have hid : calls.id ≠ d.id := fun he => (fresh_spec hf).1 d hd he.symm
    cases hok : (u.createDeployment calls d.record d.nodeIds).2 with
    | none => exact hu.saved hp hid (by rw [hok]; exact nofun) fun p hp => by cases hp
    | some ok =>
      cases ok with
      | true =>
        exact hu.saved hp hid (by rw [hok]; exact nofun) fun p hp' => (hu.settled hnd hp hp').1 hok
      | false =>
        by_cases hrc : calls.reconnecting
        · rw [if_pos hrc]
          by_cases hs : calls.stage = .rejected
          · rw [if_pos hs]
            obtain ⟨-, hsame⟩ | ⟨hne, -⟩ := hr.appended
            · rw [hsame]
              have hk := hu.resaved { d with interrupted := true } rfl (Sub.refl u) hu.kept
              have hlab := hu.labels.append { d with interrupted := true } h.labels hd
                hu.removed.containers rfl fun _ => rfl
              exact ⟨hk.own, hk.held, ⟨hlab.unique, hlab.member⟩, fun p hp => by cases hp⟩
            · exact absurd hs hne
          · rw [if_neg hs]
            have hlab : Labels ((u.createDeployment calls d.record d.nodeIds).1.update calls.id
                fun d => { d with interrupted := true }) :=
              hr.labels.update calls.id (fun _ => rfl) fun _ _ => rfl
            have hheld : Held (Addressed (u.createDeployment calls d.record d.nodeIds).1)
                (u.createDeployment calls d.record d.nodeIds).1 :=
              hr.held_mono hu hs (fun _ h _ => h) hid
            refine ⟨hr.kept.own, hheld.mono fun n k ha => ?_, ⟨hlab.unique, hlab.member⟩,
              fun p hp => by cases hp⟩
            exact Addressed.update ha fun _ => rfl
        · rw [if_neg hrc]
          have hlab := hr.labels.sub (pruneRecord_sub _ calls d.record d.nodeIds)
          by_cases hs : calls.stage = .rejected
          · rw [if_pos hs]
            obtain ⟨-, hsame⟩ | ⟨hne, -⟩ := hr.appended
            · have hpr := hu.kept.pruneRecord calls
                fun n k (hmem : (n, k) ∈ recordPairs d.record d.nodeIds) => record_pruned hmem
              have hset : ∀ p ∈ d.preserved calls d.nodeIds, _ := fun p hp' =>
                (hu.settled hnd hp hp').2
              rw [hsame] at hlab hset ⊢
              have hk := hu.resaved { d with interrupted := false } rfl
                (pruneRecord_sub u calls d.record d.nodeIds) hpr
              have hlab' := hlab.append { d with interrupted := false } h.labels hd
                (fun c hc => hu.removed.containers c ((pruneRecord_sub _ _ _ _).containers c hc)) rfl
                fun _ => rfl
              exact ⟨hk.own, hk.held, ⟨hlab'.unique, hlab'.member⟩, hset⟩
            · exact absurd hs hne
          · rw [if_neg hs]
            have hpr := hu.failed hp
            exact ⟨hpr.own, hpr.held, ⟨hlab.unique, hlab.member⟩,
              fun p hp' => (hu.settled hnd hp hp').2⟩

theorem Inv.removeDeployment (h : Inv s) (hd : d ∈ s.deployments) (hp : PlainRemove s calls d) :
    Inv { s.removeDeployment calls d with preserved := [] } := by
  have happ : Apart (Among d.pairs) s := fun v hv k hk hm => hp.apart (v.node, k) hk v hv rfl hm
  have hkept : ∀ A : N → String → Prop, Held A s → Kept (Among d.pairs) A
      (s.removeMembers calls.refuses calls.removal (fun _ => false) d.id d.members).1 := by
    intro A hA
    exact Kept.removeMembers (K := fun m => d.key m.rank) ⟨h.own, happ, hA⟩
      (member_containers h.labels hd (fun m hm => List.mem_map_of_mem hm)
        nofun)
  have hsub : Sub s
      (s.removeMembers calls.refuses calls.removal (fun _ => false) d.id d.members).1 :=
    removeMembers_sub
  have hlab := h.labels.sub hsub
  unfold State.removeDeployment
  dsimp only
  rw [removeMembers_error]
  by_cases herr : (d.members.any fun m => decide (calls.removal m.node ≠ .done))
  · rw [if_pos herr]
    have hk := hkept _ h.held
    have hup := hlab.update d.id (f := fun d => { d with interrupted := false }) (fun _ => rfl)
      fun _ _ => rfl
    refine ⟨hk.own, hk.held.mono fun n k ha => ?_, ⟨hup.unique, hup.member⟩, fun p hp => by cases hp⟩
    refine Addressed.update ?_ fun _ => rfl
    unfold Addressed
    rw [hsub.deployments]
    exact ha
  · rw [if_neg herr]
    have hk := hkept _ (hp.tidy (not_error herr))
    have hdrop := hlab.drop d.id
    refine ⟨hk.own, hk.held.mono ?_, ⟨hdrop.unique, hdrop.member⟩, fun p hp => by cases hp⟩
    rintro n k (⟨d', hd', hne, hmem⟩ | hnil)
    · refine ⟨d', List.mem_filter.mpr ⟨?_, decide_eq_true hne⟩, hmem⟩
      rw [hsub.deployments]
      exact hd'
    · cases hnil

theorem Inv.launchAlone (h : Inv s) {text : String}
    (hfree : ∀ c' ∈ s.containers, c'.node = c.node → c'.name ≠ c.name)
    (hname : c.name = .alone text)
    (hp : ApartOf [(c.node, c.key)] (s.volumes ++ [c.volume]))
    (hm : made = .halfway → c.volume ∈ s.volumes) :
    Inv { s.createStrataContainer refuses made c with preserved := [] } := by
  have hg : Grows c.volume c s (s.createStrataContainer refuses made c) := create_grows c
  have hk : Kept (Among [(c.node, c.key)]) (Addressed s) (s.createStrataContainer refuses made c) :=
    Kept.create ⟨h.own, hp.apart, h.held⟩ (List.mem_singleton.mpr rfl)
      (fun k hk hmt => hp (c.node, k) hk _ (List.mem_append_right _ List.mem_cons_self) rfl hmt)
      fun hhalf => Or.inl (hm hhalf)
  have hlab := h.labels.grows hg (fun c' hc' hn hname' => absurd hname' (hfree c' hc' hn))
    fun d _ rank hmember => by cases hname.symm.trans hmember
  refine ⟨hk.own, hk.held.mono fun n k ha => ?_, ⟨hlab.unique, hlab.member⟩, fun p hp => by cases hp⟩
  unfold Addressed
  rw [hg.deployments]
  exact ha

theorem Inv.removeAlone (h : Inv s)
    (hp : ∀ c ∈ s.containers, c.node = node → c.name = name → ApartOf [(node, c.key)] s.volumes) :
    Inv { (s.remove refuses how false node name).1 with preserved := [] } := by
  have happ : Apart (fun n k => n = node ∧ ∃ c ∈ s.containers, c.node = node ∧ c.name = name ∧
      c.key = k) s := by
    rintro v hv k ⟨hn, c, hc, hcn, hname, rfl⟩ hm
    exact hp c hc hcn hname (node, c.key) (List.mem_singleton.mpr rfl) v hv hn hm
  obtain ⟨key, hkey⟩ : ∃ key, ∀ c ∈ s.containers, c.node = node → c.name = name → c.key = key := by
    by_cases hex : ∃ c ∈ s.containers, c.node = node ∧ c.name = name
    · obtain ⟨c, hc, hn, hname⟩ := hex
      exact ⟨c.key, fun c' hc' hn' hname' => h.labels.unique c' hc' c hc (hn'.trans hn.symm)
        (hname'.trans hname.symm)⟩
    · exact ⟨"", fun c hc hn hname => absurd ⟨c, hc, hn, hname⟩ hex⟩
  have hk : Kept _ (Addressed s) (s.remove refuses how false node name).1 :=
    Kept.remove ⟨h.own, happ, h.held⟩ fun c hc hn hname =>
      ⟨hkey c hc hn hname, ⟨rfl, c, hc, hn, hname, rfl⟩, nofun⟩
  have hsub : Sub s (s.remove refuses how false node name).1 := remove_sub
  have hlab := h.labels.sub hsub
  refine ⟨hk.own, hk.held.mono fun n k ha => ?_, ⟨hlab.unique, hlab.member⟩, fun p hp => by cases hp⟩
  unfold Addressed
  rw [hsub.deployments]
  exact ha

theorem Inv.step {e : Event N} (h : Inv s) (hp : Plain s e) (he : step s e = some s') : Inv s' := by
  cases e with
  | create record nodeIds calls =>
    obtain ⟨hc, rfl⟩ := guard_some he
    exact h.create hp hc.2
  | relaunch id nodeIds calls =>
    obtain ⟨d, hd, he⟩ := Option.bind_eq_some_iff.mp he
    obtain ⟨hc, rfl⟩ := guard_some he
    simp only [Plain, hd] at hp
    exact h.relaunch (deployment_spec hd).1 hp hc.1 hc.2
  | resume id calls =>
    obtain ⟨d, hd, he⟩ := Option.bind_eq_some_iff.mp he
    obtain ⟨hc, rfl⟩ := guard_some he
    simp only [Plain, hd] at hp
    exact h.resume (deployment_spec hd).1 hp hc.2.1 hc.2.2
  | remove id calls =>
    obtain ⟨d, hd, rfl⟩ := Option.map_eq_some_iff.mp he
    simp only [Plain, hd] at hp
    exact h.removeDeployment (deployment_spec hd).1 hp
  | launchAlone node name record calls =>
    obtain ⟨hfree, he⟩ := Option.ite_none_left_eq_some.mp he
    cases he
    refine h.launchAlone (fun c' hc' hn hname => hfree ?_) rfl hp.1 hp.2
    refine List.any_eq_true.mpr ⟨c', hc', ?_⟩
    rw [Bool.and_eq_true, decide_eq_true_eq, decide_eq_true_eq]
    exact ⟨hn, hname⟩
  | removeAlone node name calls =>
    cases he
    exact h.removeAlone hp

/-- **The volumes are reclaimed exactly.** -/
theorem volumes_exact {s : State N} (hr : Reach step Plain (init N) s) : Exact s :=
  (hr.invariant init_inv fun _ _ _ ha hc he => ha.step hc he).exact

/-! ## Two runs -/

instance (pairs : List (N × String)) (volumes : List (Volume N)) :
    Decidable (ApartOf pairs volumes) :=
  inferInstanceAs (Decidable (∀ p ∈ pairs, ∀ v ∈ volumes, v.node = p.1 → v.matches p.2 →
    v.key = p.2))

instance (s : State N) (id : String) (placement : List (N × String)) :
    Decidable (Tidy s id placement) :=
  inferInstanceAs (Decidable (∀ v ∈ s.volumes, v.node ∈ s.failed ∨
    (∃ c ∈ s.containers, c.node = v.node ∧ c.key = v.key) ∨
      ((∃ d ∈ s.deployments, d.id ≠ id ∧ (v.node, v.key) ∈ d.addressed) ∨
        (v.node, v.key) ∈ placement)))

instance (s : State N) (calls : Calls N) (d : Deployment N) (nodeIds : List N) :
    Decidable (Reclaimable s calls d nodeIds) :=
  inferInstanceAs (Decidable (∀ m ∈ d.members, preserves d.record nodeIds m →
    calls.removal m.node ≠ .failed → calls.removal m.node = .done ∧
      calls.reclaims m.node ∧
        (∀ v ∈ s.volumes ++ launchVolumes calls d.record nodeIds, v.node = m.node →
          v.key = d.key m.rank → calls.refuses v = false) ∧
        ∀ c ∈ s.containers, c.node = m.node → c.key = d.key m.rank →
          c.name = .member d.id m.rank))

instance (s : State N) (calls : Calls N) (d : Deployment N) (nodeIds : List N) :
    Decidable (PlainRelaunch s calls d nodeIds) :=
  decidable_of_iff (ApartOf (relaunchPairs calls d nodeIds)
      (s.volumes ++ launchVolumes calls d.record nodeIds) ∧
    ((∀ m ∈ d.members, calls.removal m.node = .done) →
      Tidy s d.id (placementPairs d.record nodeIds)) ∧ Reclaimable s calls d nodeIds)
    ⟨fun h => ⟨h.1, h.2.1, h.2.2⟩, fun h => ⟨h.apart, h.tidy, h.reclaimable⟩⟩

instance (s : State N) (calls : Calls N) (d : Deployment N) : Decidable (PlainRemove s calls d) :=
  decidable_of_iff (ApartOf d.pairs s.volumes ∧
    ((∀ m ∈ d.members, calls.removal m.node = .done) → Tidy s d.id []))
    ⟨fun h => ⟨h.1, h.2⟩, fun h => ⟨h.apart, h.tidy⟩⟩

instance (s : State N) (e : Event N) : Decidable (Plain s e) :=
  match e with
  | .create record nodeIds calls =>
    inferInstanceAs (Decidable (ApartOf (calls.deployment record nodeIds).pairs
      (s.volumes ++ launchVolumes calls record nodeIds)))
  | .relaunch id nodeIds calls =>
    match h : s.deployment id with
    | none => isTrue (by simp only [Plain, h])
    | some d => decidable_of_iff (PlainRelaunch s calls d (d.nodesOr nodeIds))
        (by simp only [Plain, h])
  | .resume id calls =>
    match h : s.deployment id with
    | none => isTrue (by simp only [Plain, h])
    | some d => decidable_of_iff (PlainRelaunch s calls d d.nodeIds) (by simp only [Plain, h])
  | .remove id calls =>
    match h : s.deployment id with
    | none => isTrue (by simp only [Plain, h])
    | some d => decidable_of_iff (PlainRemove s calls d) (by simp only [Plain, h])
  | .launchAlone node name record calls =>
    inferInstanceAs (Decidable (ApartOf [(node, aloneKey name record)]
        (s.volumes ++ [⟨node, aloneKey name record, calls.fingerprint node⟩]) ∧
      (calls.made node = .halfway →
        ⟨node, aloneKey name record, calls.fingerprint node⟩ ∈ s.volumes)))
  | .removeAlone node name _ =>
    inferInstanceAs (Decidable (∀ c ∈ s.containers, c.node = node → c.name = .alone name →
      ApartOf [(node, c.key)] s.volumes))

/-- Every call succeeds, but the creation of containers may go otherwise. -/
def answered (id text : String) (h : text.toList.length = 12) (made : Made) : Calls ℕ where
  id := id
  stage := .launched
  made _ := made
  fingerprint _ := ⟨text, h⟩
  removal _ := .done
  rollback _ := .done
  reclaims _ := true
  refuses _ := false
  reconnecting := false

/-- A deployment on two nodes is given other settings, and then another node. -/
def relocated : List (Event ℕ) :=
  [.create "rec" [0, 1] (answered "c1" "0123456789ab" (by decide) .created),
    .relaunch "c1" [] (answered "c2" "ba9876543210" (by decide) .created),
    .relaunch "c2" [2, 1] (answered "c3" "ba9876543210" (by decide) .created)]

theorem volumes_exact_relocated : ∃ s, Reach step Plain (init ℕ) s ∧
    s.volumes.map (fun v => (v.node, v.key)) = [(2, "rec-r0"), (1, "rec-r1")] ∧
    s.reclaimed.length = 3 ∧ Exact s := by
  obtain ⟨s, hr, hp⟩ := reach_any
    (p := fun s : State ℕ =>
      decide (s.volumes.map (fun v => (v.node, v.key)) = [(2, "rec-r0"), (1, "rec-r1")]) &&
        decide (s.reclaimed.length = 3))
    (show (replay step Plain (init ℕ) relocated).any _ = true by decide +kernel)
  rw [Bool.and_eq_true] at hp
  exact ⟨s, hr, of_decide_eq_true hp.1, of_decide_eq_true hp.2, volumes_exact hr⟩

/-- The launch of `rec-1` reclaims the volume that `rec-10` has for its next attempt. -/
theorem other_reclaimed : ∃ s, Reach step Free (init ℕ) s ∧
    ∃ p ∈ s.reclaimed, p.1 = "rec-1" ∧ p.2.key = "rec-10-r0" := by
  obtain ⟨s, hr, hp⟩ := reach_any
    (p := fun s : State ℕ =>
      s.reclaimed.any fun p => decide (p.1 = "rec-1") && decide (p.2.key = "rec-10-r0"))
    (show (replay step Free (init ℕ)
      [.create "rec-10" [0] (answered "c1" "0123456789ab" (by decide) .halfway),
        .launchAlone 0 "strata" "rec-1" (answered "" "ba9876543210" (by decide) .created)]).any _ =
          true by decide +kernel)
  obtain ⟨p, hmem, hb⟩ := List.any_eq_true.mp hp
  rw [Bool.and_eq_true, decide_eq_true_eq, decide_eq_true_eq] at hb
  exact ⟨s, hr, p, hmem, hb⟩

end SparkDeck.Strata
