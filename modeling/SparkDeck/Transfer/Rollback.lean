import SparkDeck.Lib.Table
import SparkDeck.Transfer.World

/-!
# A canceled transfer leaves nothing on its target

In every run of `World.step` whose steps meet `Clean`, every state is `Sound` (`rolled_back`).
Without the condition a peer import that arrives after its cancellation was confirmed registers its
repository (`registered_late`).

Under the condition only the last import of a job can still place a repository, and only the last
one has (`Inv.last`, `Inv.placed`); a peer import remembers the identity of what it placed until a
rollback removed it, and nobody else's repository has an identity that is remembered (`Inv.kept`).
What holds of each job is `JobInv`; what a change of one import, of the place on the target, of a
cancellation or of a job keeps are `Inv.setImport`, `Inv.shrink`, `Inv.setCancel` and `Inv.setJob`.
-/

namespace SparkDeck.Transfer

open Transition Function

variable {M I : Type*}

/-- The import has reached the target. -/
def Stage.present : Stage → Bool
  | .flying | .lost => false
  | _ => true

/-- The import is at work on the target. -/
def Stage.active : Stage → Bool
  | .receiving | .placed | .removing => true
  | _ => false

/-- The import may have placed its repository. -/
def Stage.past : Stage → Bool
  | .placed | .removing | .ended => true
  | _ => false

variable {st : Stage}

theorem Stage.not_over_of_active (h : st.active = true) : st.isOver = false := by
  cases st <;> first | rfl | cases h

theorem Stage.present_of_active (h : st.active) : st.present := by
  cases st <;> first | rfl | cases h

theorem Stage.present_of_past (h : st.past) : st.present := by
  cases st <;> first | rfl | cases h

/-- What is over stays as it is. -/
structure Grows (st st' : Stage) : Prop where
  ends : st.isOver → st' = st
  past : st.past → st'.past
  present : st.present → st'.present

theorem Grows.refl (st : Stage) : Grows st st := ⟨fun _ => rfl, fun h => h, fun h => h⟩

theorem Grows.isOver {st st' : Stage} (h : Grows st st') (ho : st.isOver) :
    st'.isOver := by
  rw [h.ends ho]
  exact ho

theorem Grows.not_over {st st' : Stage} (h : Grows st st') (ho : st'.isOver = false) :
    st.isOver = false := by
  by_contra hn
  rw [h.isOver (Bool.of_not_eq_false hn)] at ho
  cases ho

section Update

variable {α β : Type*} [DecidableEq α] {f : α → Option β} {a a' : α} {b c : β}

theorem update_none_cases (h : update f a none a' = some b) :
    a' ≠ a ∧ f a' = some b := by
  by_cases ha : a' = a
  · subst ha
    rw [update_self] at h
    cases h
  · rw [update_of_ne ha] at h
    exact ⟨ha, h⟩

theorem update_some_cases (h : update f a (some c) a' = some b) :
    a' = a ∧ b = c ∨ a' ≠ a ∧ f a' = some b := by
  by_cases ha : a' = a
  · subst ha
    rw [update_self] at h
    exact Or.inl ⟨rfl, (Option.some.inj h).symm⟩
  · rw [update_of_ne ha] at h
    exact Or.inr ⟨ha, h⟩

end Update

/-- Where a job waits for its import. -/
def Place.waits : Place → Bool
  | .importing | .verifying | .asking => true
  | _ => false

namespace World

/-- No request of job `j` was sent after `i`. -/
def Last (w : World M I) (i j : ℕ) : Prop :=
  ∀ (i' : ℕ) (x : Import M I), w.imports[i']? = some x → x.job = j → i' ≤ i

/-- What is at the place of model `m`, import `i` placed. -/
def Own (w : World M I) (i : ℕ) (m : M) : Prop :=
  ∀ repo, w.dest m = some repo → repo.placer = some i

/-- Import `i`, which is `x`, placed a repository that is on the target. -/
def Placed (w : World M I) (i : ℕ) (x : Import M I) : Prop :=
  ∃ m repo, w.dest m = some repo ∧ repo.placer = some i ∧ w.imports[i]? = some x

/-- No peer import of job `j` is at work, and nothing that one placed is on the target. -/
def Undone (w : World M I) (j : ℕ) : Prop :=
  (∀ (i : ℕ) (x : Import M I), w.imports[i]? = some x → x.job = j → x.peer →
    x.stage.active = false) ∧ ∀ i x, w.Placed i x → x.job = j → x.peer = false

/-- No import of job `j` can place a repository any more, where a peer import can only if
`confirmed` does not hold; and nothing that one placed is on the target. -/
def Barren (w : World M I) (j : ℕ) (confirmed : Bool) : Prop :=
  (∀ (i : ℕ) (x : Import M I), w.imports[i]? = some x → x.job = j →
    x.stage.isOver = true ∨ x.peer = false ∧ x.complete = false ∨
      x.peer ∧ confirmed) ∧
  ∀ i x, w.Placed i x → x.job ≠ j

structure JobInv (w : World M I) (j : ℕ) (job : Job M) : Prop where
  confirmed : job.confirmed → w.Undone j
  canceled : job.status = .canceled → w.Barren j job.confirmed
  running : job.place ≠ .idle → job.place ≠ .over → job.status = .running
  /-- A job that waits has sent the last request of its own. -/
  request : job.place.waits →
    ∃ i x, job.request = some i ∧ w.imports[i]? = some x ∧ x.job = j ∧ x.peer = job.peer ∧
      w.Last i j
  asking : job.place = .asking → job.peer
  /-- A job whose stream goes through the controller is not canceled once it is all sent. -/
  sent : job.peer = false → (job.place = .verifying → w.complete job = true) ∧
    (job.place.waits = true → w.complete job = true → job.event = false)
  answered : job.answered → job.confirmed

/-- What holds of the requests, whatever is on the target. -/
structure Flow (w : World M I) : Prop where
  model : ∀ (i : ℕ) (x : Import M I), w.imports[i]? = some x →
    ∃ job, w.jobs[x.job]? = some job ∧ job.model = x.model
  last : ∀ (i : ℕ) (x : Import M I), w.imports[i]? = some x → x.stage.isOver = false →
    w.Last i x.job
  /-- A cancellation under way has the last record of its transfer. -/
  pending : ∀ c ∈ w.cancels, c.waiter ≠ .over → ∃ x, w.imports[c.target]? = some x ∧
    x.peer ∧ x.stage.present ∧
      ∀ (i : ℕ) (x' : Import M I), w.imports[i]? = some x' → x'.job = x.job → x'.peer →
        c.target < i → x'.stage.present = false
  recorded : ∀ j i, w.records j = some i → ∃ x, w.imports[i]? = some x ∧ x.job = j ∧
    x.peer ∧ x.stage.present ∧
      ∀ (i' : ℕ) (x' : Import M I), w.imports[i']? = some x' → x'.job = j → x'.peer →
        i < i' → x'.stage.present = false
  unrecorded : ∀ (i : ℕ) (x : Import M I), w.imports[i]? = some x → x.peer →
    x.stage.present = true → x.stage.isOver = false → w.records x.job = some i

structure Inv (w : World M I) : Prop extends Flow w where
  /-- A repository was placed by the last import of its job, which remembers it if it can. -/
  placed : ∀ (m : M) (repo : Repo I) (i : ℕ), w.dest m = some repo → repo.placer = some i →
    ∃ x, w.imports[i]? = some x ∧ x.model = m ∧ x.stage.past ∧ w.Last i x.job ∧
      (x.peer = true → x.identity = some repo.identity) ∧ (x.peer = false → x.complete = true)
  kept : ∀ (i : ℕ) (x : Import M I), w.imports[i]? = some x → w.remembered i x →
    ∀ repo, w.dest x.model = some repo → x.identity = some repo.identity → repo.placer = some i
  removing : ∀ (i : ℕ) (x : Import M I), w.imports[i]? = some x → x.stage = .removing →
    w.Own i x.model
  rolling : ∀ c ∈ w.cancels, c.waiter = .removing → ∀ x, w.imports[c.target]? = some x →
    x.stage = .ended ∧ w.Own c.target x.model
  job : ∀ (j : ℕ) (job : Job M), w.jobs[j]? = some job → w.JobInv j job
  own : w.foreign = false

variable {w w' : World M I} {i j : ℕ} {x x' : Import M I} {m : M} {job job' : Job M}

theorem holds_eq_true_iff : w.holds j m ↔
    ∃ repo i x, w.dest m = some repo ∧ repo.placer = some i ∧ w.imports[i]? = some x ∧
      x.job = j := by
  unfold holds
  simp only [Option.any_eq_true, decide_eq_true_eq]
  constructor
  · rintro ⟨repo, hrepo, i, hi, x, hx, hj⟩
    exact ⟨repo, i, x, hrepo, hi, hx, hj⟩
  · rintro ⟨repo, i, x, hrepo, hi, hx, hj⟩
    exact ⟨repo, hrepo, i, hi, x, hx, hj⟩

theorem Inv.sound (h : Inv w) : Sound w where
  canceled j job hj hst m := by
    by_contra hh
    obtain ⟨repo, i, x, hrepo, hi, hx, hxj⟩ := holds_eq_true_iff.mp (Bool.of_not_eq_false hh)
    exact ((h.job j job hj).canceled hst).2 i x ⟨m, repo, hrepo, hi, hx⟩ hxj
  confirmed j job hj hc m repo i x hrepo hi hx hxj :=
    ((h.job j job hj).confirmed hc).2 i x ⟨m, repo, hrepo, hi, hx⟩ hxj
  own := h.own

/-- The last request of a job is one. -/
theorem last_unique {i' : ℕ} (h : w.Last i j) (h' : w.Last i' j)
    (hx : w.imports[i]? = some x) (hj : x.job = j) (hx' : w.imports[i']? = some x')
    (hj' : x'.job = j) : i = i' :=
  Nat.le_antisymm (h' i x hx hj) (h i' x' hx' hj')

/-- `Inv.placed`, from the side of the import. -/
theorem Inv.of_placed (h : Inv w) (hp : w.Placed i x) :
    ∃ repo, w.dest x.model = some repo ∧ repo.placer = some i ∧ x.stage.past ∧
      w.Last i x.job ∧ (x.peer → x.identity = some repo.identity) ∧
      (x.peer = false → x.complete = true) := by
  obtain ⟨m, repo, hrepo, hi, hx⟩ := hp
  obtain ⟨y, hy, rfl, hpast, hlast, hid, hcomplete⟩ := h.placed m repo i hrepo hi
  cases hx.symm.trans hy
  exact ⟨repo, hrepo, hi, hpast, hlast, hid, hcomplete⟩

/-- A job's invariant reads the imports and the target. -/
theorem JobInv.congr (hj : w.JobInv j job) (hi : w'.imports = w.imports)
    (hd : ∀ m repo, w'.dest m = some repo → ∀ i, repo.placer = some i → w.dest m = some repo) :
    w'.JobInv j job := by
  have hplaced : ∀ i x, w'.Placed i x → w.Placed i x := by
    rintro i x ⟨m, repo, hrepo, hp, hx⟩
    exact ⟨m, repo, hd m repo hrepo i hp, hp, hi ▸ hx⟩
  have hcomplete : w'.complete job = w.complete job := by
    unfold World.complete
    rw [hi]
  constructor
  · intro hc
    unfold Undone
    rw [hi]
    exact ⟨(hj.confirmed hc).1, fun i x hx => (hj.confirmed hc).2 i x (hplaced i x hx)⟩
  · intro hc
    unfold Barren
    rw [hi]
    exact ⟨(hj.canceled hc).1, fun i x hx => (hj.canceled hc).2 i x (hplaced i x hx)⟩
  · exact hj.running
  · unfold Last
    rw [hi]
    exact hj.request
  · exact hj.asking
  · rw [hcomplete]
    exact hj.sent
  · exact hj.answered

theorem complete_eq_true_iff : w.complete job ↔
    ∃ i x, job.request = some i ∧ w.imports[i]? = some x ∧ x.complete := by
  unfold World.complete
  simp only [Option.any_eq_true]
  constructor
  · rintro ⟨i, hi, x, hx, hc⟩
    exact ⟨i, x, hi, hx, hc⟩
  · rintro ⟨i, x, hi, hx, hc⟩
    exact ⟨i, hi, x, hx, hc⟩

/-! ## A change of one import -/

section SetImport

theorem last_set (hx : w.imports[i]? = some x) (hjob : x'.job = x.job) {i' j : ℕ} :
    (w.setImport i x').Last i' j ↔ w.Last i' j := by
  constructor
  · intro h k y hy hj
    by_cases hk : k = i
    · subst hk
      cases hx.symm.trans hy
      exact h k x' (Table.get_set_self hx) (hjob.trans hj)
    · exact h k y (Table.get_set_ne hy hk) hj
  · intro h k y hy hj
    rcases Table.set_cases hy with ⟨rfl, rfl⟩ | ⟨-, hy⟩
    · exact h k x hx (hjob.symm.trans hj)
    · exact h k y hy hj

/-- Its job sends the stream, and was not canceled. -/
def Sending (w : World M I) (x : Import M I) : Prop :=
  ∃ job, w.jobs[x.job]? = some job ∧ job.place = .importing ∧ job.event = false

/-- What a step of one import may change: nothing of what its request said. -/
structure Moves (w : World M I) (x x' : Import M I) : Prop where
  job : x'.job = x.job
  model : x'.model = x.model
  peer : x'.peer = x.peer
  complete : x'.complete = x.complete ∨ x'.complete ∧ w.Sending x
  stage : Grows x.stage x'.stage
  arrives : x'.stage.present →
    x.stage.present = true ∨ x.peer = false ∨ w.Uncanceled x.job

/-- A peer import is at work afterwards only if it was before, or its transfer is not canceled. -/
theorem Moves.active (hm : Moves w x x') (ha : x'.stage.active) :
    x.stage.active = true ∨ x.peer = false ∨ w.Uncanceled x.job := by
  refine (hm.arrives (Stage.present_of_active ha)).imp_left fun hpx => ?_
  cases hst : x.stage with
  | flying | lost => rw [hst] at hpx; cases hpx
  | ended =>
    rw [hm.stage.ends (by rw [hst]; rfl), hst] at ha
    cases ha
  | _ => rfl

theorem Moves.refl (w : World M I) (x : Import M I) : Moves w x x :=
  ⟨rfl, rfl, rfl, Or.inl rfl, .refl x.stage, Or.inl⟩

variable (hx : w.imports[i]? = some x) (hm : Moves w x x')
include hx hm

/-- What is found after the change moved from what was there. -/
theorem Moves.back {i' : ℕ} {y : Import M I} (hy : (w.setImport i x').imports[i']? = some y) :
    ∃ y₀, w.imports[i']? = some y₀ ∧ Moves w y₀ y := by
  rcases Table.set_cases hy with ⟨rfl, rfl⟩ | ⟨-, hy⟩
  · exact ⟨x, hx, hm⟩
  · exact ⟨y, hy, .refl w y⟩

theorem Moves.forth {i' : ℕ} {y : Import M I} (hy : w.imports[i']? = some y) :
    ∃ y', (w.setImport i x').imports[i']? = some y' ∧ Moves w y y' := by
  by_cases hi : i' = i
  · subst hi
    cases hx.symm.trans hy
    exact ⟨x', Table.get_set_self hx, hm⟩
  · exact ⟨y, Table.get_set_ne hy hi, .refl w y⟩

theorem JobInv.setImport (hjob : w.jobs[j]? = some job) (hj : w.JobInv j job) :
    (w.setImport i x').JobInv j job where
  confirmed hc := by
    constructor
    · intro i' y hy hyj hyp
      obtain ⟨y₀, hy₀, hm₀⟩ := hm.back hx hy
      have hyj₀ : y₀.job = j := hm₀.job.symm.trans hyj
      have hyp₀ : y₀.peer := hm₀.peer.symm.trans hyp
      have hidle := (hj.confirmed hc).1 i' y₀ hy₀ hyj₀ hyp₀
      by_contra hact
      rcases hm₀.active (Bool.of_not_eq_false hact) with hact₀ | hrelay | hun
      · cases hidle.symm.trans hact₀
      · cases hyp₀.symm.trans hrelay
      · rw [hun.1 job (hyj₀ ▸ hjob)] at hc
        cases hc
    · rintro i' y ⟨m, repo, hrepo, hi, hy⟩ hyj
      obtain ⟨y₀, hy₀, hm₀⟩ := hm.back hx hy
      rw [hm₀.peer]
      exact (hj.confirmed hc).2 i' y₀ ⟨m, repo, hrepo, hi, hy₀⟩ (hm₀.job.symm.trans hyj)
  canceled hc := by
    constructor
    · intro i' y hy hyj
      obtain ⟨y₀, hy₀, hm₀⟩ := hm.back hx hy
      have hyj₀ : y₀.job = j := hm₀.job.symm.trans hyj
      rw [hm₀.peer]
      refine ((hj.canceled hc).1 i' y₀ hy₀ hyj₀).imp hm₀.stage.isOver (Or.imp_left fun hrelay => ?_)
      refine ⟨hrelay.1, ?_⟩
      rcases hm₀.complete with he | ⟨-, job', hj', hplace, -⟩
      · rw [he, hrelay.2]
      · cases hjob.symm.trans (hyj₀ ▸ hj')
        rw [hj.running (by rw [hplace]; decide) (by rw [hplace]; decide)] at hc
        cases hc
    · rintro i' y ⟨m, repo, hrepo, hi, hy⟩ hyj
      obtain ⟨y₀, hy₀, hm₀⟩ := hm.back hx hy
      exact (hj.canceled hc).2 i' y₀ ⟨m, repo, hrepo, hi, hy₀⟩ (hm₀.job.symm.trans hyj)
  running := hj.running
  request hw := by
    obtain ⟨i', y, hr, hy, hyj, hyp, hlast⟩ := hj.request hw
    obtain ⟨y', hy', hm'⟩ := hm.forth hx hy
    exact ⟨i', y', hr, hy', hm'.job.trans hyj, hm'.peer.trans hyp, (last_set hx hm.job).mpr hlast⟩
  asking := hj.asking
  sent hp := by
    constructor
    · intro hv
      obtain ⟨k, y, hr, hy, hc⟩ := complete_eq_true_iff.mp ((hj.sent hp).1 hv)
      obtain ⟨y', hy', hm'⟩ := hm.forth hx hy
      refine complete_eq_true_iff.mpr ⟨k, y', hr, hy', ?_⟩
      rcases hm'.complete with he | ⟨hc', -⟩
      · exact he.trans hc
      · exact hc'
    · intro hw hc
      obtain ⟨k, y, hr, hy, hc⟩ := complete_eq_true_iff.mp hc
      obtain ⟨y₀, hy₀, hm₀⟩ := hm.back hx hy
      rcases hm₀.complete with he | ⟨-, job', hj', -, hevent⟩
      · exact (hj.sent hp).2 hw (complete_eq_true_iff.mpr ⟨k, y₀, hr, hy₀, he.symm.trans hc⟩)
      · -- The job waits for the request whose stream it sends.
        obtain ⟨l, z, hl, hz, hzj, -⟩ := hj.request hw
        cases hl.symm.trans hr
        cases hz.symm.trans hy₀
        cases hjob.symm.trans (hzj ▸ hj')
        exact hevent
  answered := hj.answered

/-- A change of one import, and of the records. -/
theorem Flow.change (h : Flow w) {r : ℕ → Option ℕ}
    (hrecorded : ∀ k l, r k = some l → ∃ y, (w.setImport i x').imports[l]? = some y ∧
      y.job = k ∧ y.peer ∧ y.stage.present ∧
        ∀ (i' : ℕ) (y' : Import M I), (w.setImport i x').imports[i']? = some y' → y'.job = k →
          y'.peer = true → l < i' → y'.stage.present = false)
    (hunrecorded : ∀ (k : ℕ) (y : Import M I), (w.setImport i x').imports[k]? = some y →
      y.peer = true → y.stage.present = true → y.stage.isOver = false → r y.job = some k) :
    Flow { w.setImport i x' with records := r } where
  model i' y hy := by
    obtain ⟨y₀, hy₀, hm₀⟩ := hm.back hx hy
    rw [hm₀.job, hm₀.model]
    exact h.model i' y₀ hy₀
  last i' y hy ho := by
    obtain ⟨y₀, hy₀, hm₀⟩ := hm.back hx hy
    rw [hm₀.job]
    exact (last_set hx hm.job).mpr (h.last i' y₀ hy₀ (hm₀.stage.not_over ho))
  pending c hc hw := by
    obtain ⟨y₀, hy₀, hpeer, hpresent, hlater⟩ := h.pending c hc hw
    obtain ⟨y, hy, hm₀⟩ := hm.forth hx hy₀
    refine ⟨y, hy, hm₀.peer.trans hpeer, hm₀.stage.present hpresent, ?_⟩
    intro i' z hz hzj hzp hlt
    obtain ⟨z₀, hz₀, hmz⟩ := hm.back hx hz
    have hzj₀ : z₀.job = y₀.job := by rw [← hmz.job, hzj, hm₀.job]
    have hzp₀ : z₀.peer := hmz.peer.symm.trans hzp
    have haway := hlater i' z₀ hz₀ hzj₀ hzp₀ hlt
    by_contra hpr
    rcases hmz.arrives (Bool.of_not_eq_false hpr) with hpr₀ | hrelay | hun
    · cases haway.symm.trans hpr₀
    · cases hzp₀.symm.trans hrelay
    · exact hun.2 c hc hw y₀ hy₀ hzj₀.symm
  recorded := hrecorded
  unrecorded := hunrecorded

theorem Flow.setImport (h : Flow w) (hp : x'.stage.present = x.stage.present) :
    Flow (w.setImport i x') := by
  have hpresent : ∀ (k : ℕ) (y y₀ : Import M I), (w.setImport i x').imports[k]? = some y →
      w.imports[k]? = some y₀ → y.stage.present = y₀.stage.present := by
    intro k y y₀ hy hy₀
    rcases Table.set_cases hy with ⟨rfl, rfl⟩ | ⟨-, hy⟩
    · cases hx.symm.trans hy₀
      exact hp
    · cases hy.symm.trans hy₀
      rfl
  refine h.change hx hm (r := w.records) ?_ ?_
  · intro k l hrec
    obtain ⟨y₀, hy₀, hyj, hpeer, hpr, hlater⟩ := h.recorded k l hrec
    obtain ⟨y, hy, hm₀⟩ := hm.forth hx hy₀
    refine ⟨y, hy, hm₀.job.trans hyj, hm₀.peer.trans hpeer, hm₀.stage.present hpr, ?_⟩
    intro i' z hz hzj hzp hlt
    obtain ⟨z₀, hz₀, hmz⟩ := hm.back hx hz
    rw [hpresent i' z z₀ hz hz₀]
    exact hlater i' z₀ hz₀ (hmz.job.symm.trans hzj) (hmz.peer.symm.trans hzp) hlt
  · intro k y hy hpeer hpr ho
    obtain ⟨y₀, hy₀, hm₀⟩ := hm.back hx hy
    rw [hm₀.job]
    exact h.unrecorded k y₀ hy₀ (hm₀.peer.symm.trans hpeer)
      ((hpresent k y y₀ hy hy₀).symm.trans hpr) (hm₀.stage.not_over ho)

/-- A change of one import that leaves the target alone. An identity is forgotten only when nothing
is there. -/
theorem Inv.change (h : Inv w) {r : ℕ → Option ℕ}
    (hf : Flow { w.setImport i x' with records := r })
    (hr : ∀ (k : ℕ) (y : Import M I), w.imports[k]? = some y → r y.job = some k →
      w.remembered k y)
    (hid : x'.identity = x.identity ∨ x'.identity = none ∧ w.dest x.model = none)
    (hremoving : x'.stage = .removing → w.Own i x.model) :
    Inv { w.setImport i x' with records := r } := by
  have hidentity : ∀ (k : ℕ) (y₀ y : Import M I), w.imports[k]? = some y₀ →
      (w.setImport i x').imports[k]? = some y →
      y.identity = y₀.identity ∨ y.identity = none ∧ w.dest y₀.model = none := by
    intro k y₀ y hy₀ hy
    rcases Table.set_cases hy with ⟨rfl, rfl⟩ | ⟨-, hy⟩
    · cases hx.symm.trans hy₀
      exact hid
    · cases hy.symm.trans hy₀
      exact Or.inl rfl
  refine { hf with placed := ?_, kept := ?_, removing := ?_, rolling := ?_, job := ?_,
                   own := h.own }
  · intro m repo i' hrepo hi
    obtain ⟨y₀, hy₀, hmodel, hpast, hlast, hid, hcomplete⟩ := h.placed m repo i' hrepo hi
    obtain ⟨y, hy, hm₀⟩ := hm.forth hx hy₀
    refine ⟨y, hy, hm₀.model.trans hmodel, hm₀.stage.past hpast, ?_, fun hp => ?_, fun hp => ?_⟩
    · rw [hm₀.job]
      exact (last_set hx hm.job).mpr hlast
    · rcases hidentity i' y₀ y hy₀ hy with he | ⟨-, hnone⟩
      · exact he.trans (hid (hm₀.peer.symm.trans hp))
      · rw [hmodel] at hnone
        cases hrepo.symm.trans hnone
    · rcases hm₀.complete with he | ⟨hc, -⟩
      · exact he.trans (hcomplete (hm₀.peer.symm.trans hp))
      · exact hc
  · intro i' y hy hrem repo hrepo hid
    obtain ⟨y₀, hy₀, hm₀⟩ := hm.back hx hy
    -- Who is remembered now was remembered before.
    have hrem₀ : w.remembered i' y₀ := by
      unfold remembered at hrem
      simp only [Bool.or_eq_true, Bool.not_eq_true', decide_eq_true_eq] at hrem
      rcases hrem with (ho | hrec) | hc
      · simp [remembered, hm₀.stage.not_over ho]
      · rw [hm₀.job] at hrec
        exact hr i' y₀ hy₀ hrec
      · unfold remembered
        rw [Bool.or_eq_true]
        exact Or.inr hc
    rw [hm₀.model] at hrepo
    refine h.kept i' y₀ hy₀ hrem₀ repo hrepo ?_
    rcases hidentity i' y₀ y hy₀ hy with he | ⟨he, -⟩
    · exact he.symm.trans hid
    · cases he.symm.trans hid
  · intro i' y hy hst
    rcases Table.set_cases hy with ⟨rfl, rfl⟩ | ⟨-, hy⟩
    · rw [hm.model]
      exact hremoving hst
    · exact h.removing i' y hy hst
  · intro c hc hw y hy
    obtain ⟨y₀, hy₀, hm₀⟩ := hm.back hx hy
    obtain ⟨hended, hown⟩ := h.rolling c hc hw y₀ hy₀
    rw [hm₀.model, hm₀.stage.ends (by rw [hended]; rfl)]
    exact ⟨hended, hown⟩
  · intro j' job hj
    exact ((h.job j' job hj).setImport hx hm hj).congr rfl fun _ _ hrepo _ _ => hrepo

theorem Inv.setImport (h : Inv w) (hp : x'.stage.present = x.stage.present)
    (hid : x'.identity = x.identity ∨ x'.identity = none ∧ w.dest x.model = none)
    (hremoving : x'.stage = .removing → w.Own i x.model) : Inv (w.setImport i x') := by
  refine h.change hx hm (r := w.records) (h.toFlow.setImport hx hm hp) ?_ hid hremoving
  intro k y _ hrec
  simp [remembered, hrec]

end SetImport

/-! ## The target, a cancellation, a job -/

/-- Repositories are removed, and no rollback removed what its import had not placed. -/
theorem Inv.shrink (h : Inv w) {d : M → Option (Repo I)} {b : Bool}
    (hd : ∀ m repo, d m = some repo → w.dest m = some repo) (hb : b = false) :
    Inv { w with dest := d, foreign := b } :=
  { h with
    placed m repo i hrepo := h.placed m repo i (hd m repo hrepo)
    kept i x hx hr repo hrepo := h.kept i x hx hr repo (hd x.model repo hrepo)
    removing i x hx hr repo hrepo := h.removing i x hx hr repo (hd x.model repo hrepo)
    rolling c hc hw x hx := by
      obtain ⟨hended, hown⟩ := h.rolling c hc hw x hx
      exact ⟨hended, fun repo hrepo => hown repo (hd x.model repo hrepo)⟩
    job j job hj := (h.job j job hj).congr rfl fun m repo hrepo _ _ => hd m repo hrepo
    own := hb }

variable {k : ℕ}

/-- A cancellation goes on, or is over. -/
theorem Inv.setCancel (h : Inv w) {c : Cancel} (c' : Cancel) (hc : w.cancels[k]? = some c)
    (ht : c'.target = c.target) (hw : c.waiter ≠ .over)
    (hr : c'.waiter = .removing → ∀ x, w.imports[c.target]? = some x → x.stage = .ended ∧ w.Own c.target x.model) :
    Inv (w.setCancel k c') :=
  { h with
    pending d hd hdw := by
      rcases List.mem_or_eq_of_mem_set hd with hd | rfl
      · exact h.pending d hd hdw
      · rw [ht]
        exact h.pending c (List.mem_of_getElem? hc) hw
    kept i x hx hrem := by
      refine h.kept i x hx ?_
      unfold remembered at hrem ⊢
      simp only [Bool.or_eq_true, List.any_eq_true] at hrem ⊢
      refine hrem.imp_right ?_
      rintro ⟨d, hd, hdi⟩
      rcases List.mem_or_eq_of_mem_set hd with hd | rfl
      · exact ⟨d, hd, hdi⟩
      · refine ⟨c, List.mem_of_getElem? hc, ?_⟩
        simp only [Bool.and_eq_true, decide_eq_true_eq] at hdi ⊢
        exact ⟨ht ▸ hdi.1, hw⟩
    rolling d hd hdw := by
      rcases List.mem_or_eq_of_mem_set hd with hd | rfl
      · exact h.rolling d hd hdw
      · rw [ht]
        exact hr hdw
    job j job hj := (h.job j job hj).congr rfl fun _ _ hrepo _ _ => hrepo }

/-- A cancellation finds the last record of its transfer. -/
theorem Inv.addCancel (h : Inv w) (hrec : w.records j = some i) :
    Inv { w with cancels := w.cancels ++ [⟨i, .waiting⟩] } :=
  { h with
    pending d hd hdw := by
      rcases Table.mem_snoc hd with hd | rfl
      · exact h.pending d hd hdw
      · obtain ⟨x, hx, hxj, hp, hpr, hlater⟩ := h.recorded j i hrec
        exact ⟨x, hx, hp, hpr, fun k y hy hyj => hlater k y hy (hyj.trans hxj)⟩
    kept k y hy hrem := by
      refine h.kept k y hy ?_
      unfold remembered at hrem ⊢
      simp only [Bool.or_eq_true, List.any_append, List.any_cons, List.any_nil, Bool.or_false,
        Bool.and_eq_true, decide_eq_true_eq] at hrem ⊢
      rcases hrem with hrem | hrem | ⟨hik, -⟩
      · exact Or.inl hrem
      · exact Or.inr hrem
      · subst hik
        obtain ⟨x, hx, hxj, -⟩ := h.recorded j i hrec
        cases hx.symm.trans hy
        exact Or.inl (Or.inr (by rw [hxj, hrec]))
    rolling d hd hdw := by
      rcases Table.mem_snoc hd with hd | rfl
      · exact h.rolling d hd hdw
      · cases hdw
    job j job hj := (h.job j job hj).congr rfl fun _ _ hrepo _ _ => hrepo }

theorem Inv.setJob (h : Inv w) (hj : w.jobs[j]? = some job) (hm : job'.model = job.model)
    (hinv : w.JobInv j job') : Inv (w.setJob j job') :=
  { h with
    model i x hx := by
      obtain ⟨y, hy, hym⟩ := h.model i x hx
      by_cases hxj : x.job = j
      · subst hxj
        cases hj.symm.trans hy
        exact ⟨job', Table.get_set_self hy, hm.trans hym⟩
      · exact ⟨y, Table.get_set_ne hy hxj, hym⟩
    job k y hy := by
      rcases Table.set_cases hy with ⟨rfl, rfl⟩ | ⟨-, hy⟩
      · exact hinv.congr rfl fun _ _ hrepo _ _ => hrepo
      · exact (h.job k y hy).congr rfl fun _ _ hrepo _ _ => hrepo }

/-- A record that is over is forgotten. -/
theorem Inv.forget (h : Inv w) (hrec : w.records j = some i) (hx : w.imports[i]? = some x)
    (hst : x.stage = .ended) : Inv { w with records := update w.records j none } :=
  { h with
    recorded k l hrec' := h.recorded k l (update_none_cases hrec').2
    unrecorded k y hy hp hpr ho := by
      have hold := h.unrecorded k y hy hp hpr ho
      have hj : y.job ≠ j := by
        rintro rfl
        cases hrec.symm.trans hold
        cases hx.symm.trans hy
        rw [hst] at ho
        cases ho
      change update w.records j none y.job = some k
      rw [update_of_ne hj]
      exact hold
    kept k y hy hr := by
      refine h.kept k y hy ?_
      unfold remembered at hr ⊢
      simp only [Bool.or_eq_true, decide_eq_true_eq] at hr ⊢
      exact hr.imp_left (Or.imp_right fun hrec' => (update_none_cases hrec').2)
    job j job hj := (h.job j job hj).congr rfl fun _ _ hrepo _ _ => hrepo }

/-- Nobody removes what is put where `Apart` holds, or mistakes it for its own. -/
theorem Apart.at {id : I} (ha : w.Apart m id) (hx : w.imports[i]? = some x)
    (hm : x.model = m) :
    x.stage ≠ .removing ∧ (w.remembered i x → x.identity ≠ some id) ∧
      ∀ c ∈ w.cancels, c.target = i → c.waiter ≠ .removing :=
  ha i (List.mem_range.mpr (List.getElem?_eq_some_iff.mp hx).1) x hx hm

section Target

variable [DecidableEq M]

theorem Inv.rmtree (h : Inv w) (ho : w.Own i m) : Inv (w.rmtree i m) := by
  refine h.shrink (fun m' repo hrepo => (update_none_cases hrepo).2) ?_
  rw [h.own, Bool.false_or]
  cases hrepo : w.dest m with
  | none => rfl
  | some repo =>
    simp only [Option.any_some, decide_eq_false_iff_not, not_not]
    exact ho repo hrepo

/-- Another program places a repository. -/
theorem Inv.place (h : Inv w) {id : I} (ha : w.Apart m id) :
    Inv { w with dest := update w.dest m (some ⟨id, none⟩) } :=
  { h with
    placed m' repo i hrepo hi := by
      rcases update_some_cases hrepo with ⟨-, rfl⟩ | ⟨-, hrepo⟩
      · cases hi
      · exact h.placed m' repo i hrepo hi
    kept i x hx hr repo hrepo hid := by
      rcases update_some_cases hrepo with ⟨hm, rfl⟩ | ⟨-, hrepo⟩
      · exact absurd hid ((ha.at hx hm).2.1 hr)
      · exact h.kept i x hx hr repo hrepo hid
    removing i x hx hr repo hrepo := by
      rcases update_some_cases hrepo with ⟨hm, -⟩ | ⟨-, hrepo⟩
      · exact absurd hr (ha.at hx hm).1
      · exact h.removing i x hx hr repo hrepo
    rolling c hc hw x hx := by
      obtain ⟨hended, hown⟩ := h.rolling c hc hw x hx
      refine ⟨hended, fun repo hrepo => ?_⟩
      rcases update_some_cases hrepo with ⟨hm, -⟩ | ⟨-, hrepo⟩
      · exact absurd hw ((ha.at hx hm).2.2 c hc rfl)
      · exact hown repo hrepo
    job j job hj := by
      refine (h.job j job hj).congr rfl fun m' repo hrepo i hi => ?_
      rcases update_some_cases hrepo with ⟨-, rfl⟩ | ⟨-, hrepo⟩
      · cases hi
      · exact hrepo }

/-- The import registers its repository. -/
theorem Inv.store (h : Inv w) (hx : w.imports[i]? = some x) {id : I}
    (hst : x.stage = .receiving) (hc : x.peer ∨ x.complete)
    (ha : w.Apart x.model id) : Inv (w.store i x id) := by
  have ho : x.stage.isOver = false := by rw [hst]; rfl
  have hlast : w.Last i x.job := h.last i x hx ho
  have hm : Moves w x
      { x with stage := .placed, identity := if x.peer then some id else none } := by
    refine ⟨rfl, rfl, rfl, Or.inl rfl, ⟨fun ho' => ?_, fun _ => rfl, fun _ => rfl⟩,
      fun _ => Or.inl (by rw [hst]; rfl)⟩
    cases ho.symm.trans ho'
  have hf := h.toFlow.setImport hx hm (by rw [hst]; rfl)
  have hsame : ∀ k j, w.Last k j → (w.store i x id).Last k j := fun k j => (last_set hx hm.job).mpr
  have hself : (w.store i x id).imports[i]? = some
      { x with stage := .placed, identity := if x.peer then some id else none } :=
    Table.get_set_self hx
  refine ⟨{ hf with }, ?_, ?_, ?_, ?_, ?_, h.own⟩
  · intro m repo k hrepo hk
    rcases update_some_cases hrepo with ⟨rfl, rfl⟩ | ⟨hne, hrepo⟩
    · cases hk
      refine ⟨_, hself, rfl, rfl, hsame i x.job hlast, fun hp => ?_, fun hp => ?_⟩
      · exact if_pos hp
      · exact hc.resolve_left (by rw [hp]; decide)
    · obtain ⟨y, hy, hym, hpast, hyl, hid, hcomplete⟩ := h.placed m repo k hrepo hk
      have hki : k ≠ i := by
        rintro rfl
        cases hx.symm.trans hy
        exact hne hym.symm
      exact ⟨y, Table.get_set_ne hy hki, hym, hpast, hsame k y.job hyl, hid, hcomplete⟩
  · intro k y hy hr repo hrepo hid
    rcases Table.set_cases hy with ⟨rfl, rfl⟩ | ⟨-, hy⟩
    · rcases update_some_cases hrepo with ⟨-, rfl⟩ | ⟨hne, -⟩
      · rfl
      · exact absurd rfl hne
    · rcases update_some_cases hrepo with ⟨hym, rfl⟩ | ⟨-, hrepo⟩
      · exact absurd hid ((ha.at hy hym).2.1 hr)
      · exact h.kept k y hy hr repo hrepo hid
  · intro k y hy hr repo hrepo
    rcases Table.set_cases hy with ⟨rfl, rfl⟩ | ⟨-, hy⟩
    · cases hr
    · rcases update_some_cases hrepo with ⟨hym, -⟩ | ⟨-, hrepo⟩
      · exact absurd hr (ha.at hy hym).1
      · exact h.removing k y hy hr repo hrepo
  · intro c hcm hw y hy
    rcases Table.set_cases hy with ⟨hci, rfl⟩ | ⟨-, hy⟩
    · obtain ⟨hended, -⟩ := h.rolling c hcm hw x (hci ▸ hx)
      cases hst.symm.trans hended
    · obtain ⟨hended, hown⟩ := h.rolling c hcm hw y hy
      refine ⟨hended, fun repo hrepo => ?_⟩
      rcases update_some_cases hrepo with ⟨hym, -⟩ | ⟨-, hrepo⟩
      · exact absurd hw ((ha.at hy hym).2.2 c hcm rfl)
      · exact hown repo hrepo
  · intro j job hj
    have hj' := (h.job j job hj).setImport hx hm hj
    -- What is on the target was there, or this import has just placed it.
    have hplaced : ∀ k y, (w.store i x id).Placed k y → (w.setImport i
        { x with stage := .placed, identity := if x.peer then some id else none }).Placed k y ∨
        k = i := by
      rintro k y ⟨m, repo, hrepo, hk, hy⟩
      rcases update_some_cases hrepo with ⟨-, rfl⟩ | ⟨-, hrepo⟩
      · exact Or.inr (Option.some.inj hk).symm
      · exact Or.inl ⟨m, repo, hrepo, hk, hy⟩
    refine ⟨fun hcf => ⟨(hj'.confirmed hcf).1, fun k y hy hyj => ?_⟩,
      fun hcn => ⟨(hj'.canceled hcn).1, fun k y hy hyj => ?_⟩, hj'.running, hj'.request,
      hj'.asking, hj'.sent, hj'.answered⟩
    · rcases hplaced k y hy with hy' | rfl
      · exact (hj'.confirmed hcf).2 k y hy' hyj
      · obtain ⟨m, repo, -, -, hy⟩ := hy
        cases hself.symm.trans hy
        by_contra hp
        have hidle := ((h.job j job hj).confirmed hcf).1 k x hx hyj (Bool.of_not_eq_false hp)
        rw [hst] at hidle
        cases hidle
    · rcases hplaced k y hy with hy' | rfl
      · exact (hj'.canceled hcn).2 k y hy' hyj
      · obtain ⟨m, repo, -, -, hy⟩ := hy
        cases hself.symm.trans hy
        rcases ((h.job j job hj).canceled hcn).1 k x hx hyj with
          hover | ⟨hrelay, hnot⟩ | ⟨hp, hcf⟩
        · cases ho.symm.trans hover
        · rw [hrelay, hnot] at hc
          rcases hc with hc | hc <;> cases hc
        · have hidle := ((h.job j job hj).confirmed hcf).1 k x hx hyj hp
          rw [hst] at hidle
          cases hidle

end Target

/-! ## The steps of an import -/

section Import

variable (h : Inv w) (hx : w.imports[i]? = some x)
include h hx

/-- A request is lost, or an import at the target ends. -/
theorem Inv.setStage (hg : Grows x.stage st) (hp : st.present = x.stage.present)
    (hr : st = .removing → w.Own i x.model) : Inv (w.setImport i { x with stage := st }) :=
  h.setImport hx ⟨rfl, rfl, rfl, Or.inl rfl, hg, fun h' => Or.inl (hp ▸ h')⟩ hp (Or.inl rfl) hr

theorem Inv.ended (hp : x.stage.present) :
    Inv (w.setImport i { x with stage := .ended }) := by
  refine h.setStage hx ⟨fun ho => ?_, fun _ => rfl, fun _ => rfl⟩ hp.symm nofun
  cases hst : x.stage with
  | lost => rw [hst] at hp; cases hp
  | ended => rfl
  | _ => rw [hst] at ho; cases ho

theorem Inv.arrive (hst : x.stage = .flying) (hclean : x.peer → w.Uncanceled x.job) :
    Inv (if x.peer then
      { w.setImport i { x with stage := .receiving } with
        records := update w.records x.job (some i) }
      else w.setImport i { x with stage := .receiving }) := by
  have hlast : w.Last i x.job := h.last i x hx (by rw [hst]; rfl)
  have hm : Moves w x { x with stage := .receiving } := by
    refine ⟨rfl, rfl, rfl, Or.inl rfl, ⟨fun ho => ?_, fun hp => ?_, fun _ => rfl⟩, fun _ => ?_⟩
    · rw [hst] at ho; cases ho
    · rw [hst] at hp; cases hp
    · by_cases hp : x.peer
      · exact Or.inr (Or.inr (hclean hp))
      · exact Or.inr (Or.inl (eq_false_of_ne_true hp))
  -- A record of another import is kept, and it is of an import at the target.
  have hother : ∀ k l, w.records k = some l → (x.peer → k ≠ x.job) →
      ∃ y, (w.setImport i { x with stage := .receiving }).imports[l]? = some y ∧ y.job = k ∧
        y.peer ∧ y.stage.present ∧
        ∀ (i' : ℕ) (y' : Import M I),
          (w.setImport i { x with stage := .receiving }).imports[i']? = some y' → y'.job = k →
          y'.peer = true → l < i' → y'.stage.present = false := by
    intro k l hrec hk
    obtain ⟨y, hy, hyj, hpeer, hpr, hlater⟩ := h.recorded k l hrec
    obtain ⟨y', hy', hm'⟩ := hm.forth hx hy
    refine ⟨y', hy', hm'.job.trans hyj, hm'.peer.trans hpeer, hm'.stage.present hpr, ?_⟩
    intro i' z hz hzj hzp hlt
    rcases Table.set_cases hz with ⟨rfl, rfl⟩ | ⟨-, hz⟩
    · exact absurd hzj.symm (hk hzp)
    · exact hlater i' z hz hzj hzp hlt
  -- Another import that is not over is of another job.
  have hne : ∀ (k : ℕ) (y : Import M I), k ≠ i → w.imports[k]? = some y →
      y.stage.isOver = false → y.job ≠ x.job := by
    intro k y hk hy ho hj
    exact hk (last_unique (h.last k y hy ho) (hj ▸ hlast) hy rfl hx hj.symm)
  by_cases hpeer : x.peer
  · rw [if_pos hpeer]
    refine h.change hx hm (h.toFlow.change hx hm ?_ ?_) ?_ (Or.inl rfl) nofun
    · intro k l hrec
      rcases update_some_cases hrec with ⟨rfl, rfl⟩ | ⟨hk, hrec⟩
      · refine ⟨_, Table.get_set_self hx, rfl, hpeer, rfl, fun i' z hz hzj _ hlt => ?_⟩
        exact absurd ((last_set hx hm.job).mpr hlast i' z hz hzj) (Nat.not_le.mpr hlt)
      · exact hother k l hrec fun _ => hk
    · intro k y hy hp hpr ho
      rcases Table.set_cases hy with ⟨rfl, rfl⟩ | ⟨hk, hy⟩
      · exact update_self ..
      · rw [update_of_ne (hne k y hk hy ho)]
        exact h.unrecorded k y hy hp hpr ho
    · intro k y hy hrec
      rcases update_some_cases hrec with ⟨-, rfl⟩ | ⟨-, hrec⟩
      · cases hx.symm.trans hy
        simp [remembered, hst, Stage.isOver]
      · simp [remembered, hrec]
  · rw [if_neg hpeer]
    refine h.change hx hm (r := w.records) (h.toFlow.change hx hm ?_ ?_) ?_ (Or.inl rfl)
      nofun
    · intro k l hrec
      exact hother k l hrec fun hp => absurd hp hpeer
    · intro k y hy hp hpr ho
      rcases Table.set_cases hy with ⟨rfl, rfl⟩ | ⟨-, hy⟩
      · exact absurd hp hpeer
      · exact h.unrecorded k y hy hp hpr ho
    · intro k y _ hrec
      simp [remembered, hrec]

end Import

/-! ## Rollbacks -/

theorem verdict_eq_clear [DecidableEq I] (hv : w.verdict x = .clear) :
    x.identity = none ∨ w.dest x.model = none := by
  unfold verdict at hv
  split at hv
  case h_1 hid => exact Or.inl hid
  case h_2 hdest _ => exact Or.inr hdest
  case h_3 => split at hv <;> cases hv

theorem verdict_eq_remove [DecidableEq I] (hv : w.verdict x = .remove) :
    ∃ repo, w.dest x.model = some repo ∧ x.identity = some repo.identity := by
  unfold verdict at hv
  split at hv
  case h_1 => cases hv
  case h_2 => cases hv
  case h_3 id repo hid hdest =>
    split at hv
    case isTrue he => exact ⟨repo, hdest, by rw [hid, he]⟩
    case isFalse => cases hv

/-- What a rollback is about to remove, its import has placed. -/
theorem Inv.own_of_remove [DecidableEq I] (h : Inv w) (hx : w.imports[i]? = some x)
    (hr : w.remembered i x) (hv : w.verdict x = .remove) : w.Own i x.model := by
  intro repo hrepo
  obtain ⟨repo', hrepo', hid⟩ := verdict_eq_remove hv
  cases hrepo.symm.trans hrepo'
  exact h.kept i x hx hr repo hrepo hid

theorem Barren.confirm {b : Bool} (h : w.Barren j b) : w.Barren j true :=
  ⟨fun i x hx hxj => (h.1 i x hx hxj).imp_right (Or.imp_right fun hp => ⟨hp.1, rfl⟩), h.2⟩

theorem Inv.confirm (h : Inv w) (hu : w.Undone j) : Inv (w.confirm j) := by
  unfold World.confirm
  cases hj : w.jobs[j]? with
  | none => exact h
  | some job =>
    have hji := h.job j job hj
    exact h.setJob hj rfl ⟨fun _ => hu, fun hst => (hji.canceled hst).confirm, hji.running,
      hji.request, hji.asking, hji.sent, fun _ => rfl⟩

/-- The last record of a transfer, over and without what it placed. -/
theorem Inv.undone (h : Inv w) (hx : w.imports[i]? = some x) (hst : x.stage = .ended)
    (hid : x.identity = none)
    (hlater : ∀ (k : ℕ) (y : Import M I), w.imports[k]? = some y → y.job = x.job →
      y.peer = true → i < k → y.stage.present = false) : w.Undone x.job := by
  constructor
  · intro k y hy hyj hyp
    by_contra hact
    have hact' : y.stage.active = true := Bool.of_not_eq_false hact
    rcases Nat.lt_trichotomy k i with hlt | rfl | hlt
    · exact absurd (h.last k y hy (Stage.not_over_of_active hact') i x hx hyj.symm)
        (Nat.not_le.mpr hlt)
    · cases hx.symm.trans hy
      rw [hst] at hact'
      cases hact'
    · have haway := hlater k y hy hyj hyp hlt
      rw [Stage.present_of_active hact'] at haway
      cases haway
  · intro k y hy hyj
    obtain ⟨repo, -, -, hpast, hlast, hremembers, -⟩ := h.of_placed hy
    obtain ⟨-, -, -, -, hy⟩ := hy
    by_contra hp
    have hyp : y.peer = true := Bool.of_not_eq_false hp
    rcases Nat.lt_or_eq_of_le (hlast i x hx hyj.symm) with hlt | rfl
    · have haway := hlater k y hy hyj hyp hlt
      rw [Stage.present_of_past hpast] at haway
      cases haway
    · cases hx.symm.trans hy
      cases hid.symm.trans (hremembers hyp)

theorem Inv.settle [DecidableEq I] (h : Inv w) (hx : w.imports[i]? = some x) (hst : x.stage = .placed) :
    Inv (w.settle i x) := by
  unfold World.settle
  have hg : ∀ st : Stage, st.past → st.present → Grows x.stage st := by
    intro st hpast hpresent
    refine ⟨fun ho => ?_, fun _ => hpast, fun _ => hpresent⟩
    rw [hst] at ho
    cases ho
  cases hv : w.verdict x with
  | clear =>
    refine h.setImport hx ⟨rfl, rfl, rfl, Or.inl rfl, hg _ rfl rfl, fun _ => Or.inl ?_⟩
      (by rw [hst]; rfl) ?_ nofun
    · rw [hst]
      rfl
    rcases verdict_eq_clear hv with hid | hdest
    · exact Or.inl hid.symm
    · exact Or.inr ⟨rfl, hdest⟩
  | remove =>
    refine h.setStage hx (hg _ rfl rfl) (by rw [hst]; rfl) fun _ => ?_
    exact h.own_of_remove hx (by simp [remembered, hst, Stage.isOver]) hv
  | refuse => exact h.ended hx (by rw [hst]; rfl)

theorem Inv.removed [DecidableEq M] (h : Inv w) (hx : w.imports[i]? = some x)
    (hst : x.stage = .removing) {ok : Bool} : Inv (w.removed i x ok) := by
  unfold World.removed
  split
  case isTrue =>
    have h₁ := h.rmtree (h.removing i x hx hst)
    refine h₁.setImport (x := x) hx ⟨rfl, rfl, rfl, Or.inl rfl, ⟨fun ho => ?_, fun _ => rfl,
      fun _ => rfl⟩, fun _ => Or.inl ?_⟩ (by rw [hst]; rfl) (Or.inr ⟨rfl, ?_⟩) nofun
    · rw [hst] at ho
      cases ho
    · rw [hst]
      rfl
    · exact update_self ..
  case isFalse => exact h.ended hx (by rw [hst]; rfl)

/-- A rollback that found or left nothing is over, and confirmed. -/
theorem Inv.rollbackDone (h : Inv w) {c : Cancel} (hc : w.cancels[k]? = some c)
    (hw : c.waiter ≠ .over) (hx : w.imports[c.target]? = some x) (hst : x.stage = .ended)
    (hid : x.identity = none ∨ w.dest x.model = none) :
    Inv (((w.setImport c.target { x with identity := none }).setCancel k
      { c with waiter := .over }).confirm x.job) := by
  have h₁ : Inv (w.setImport c.target { x with identity := none }) := by
    refine h.setImport hx ⟨rfl, rfl, rfl, Or.inl rfl, .refl _, Or.inl⟩ rfl ?_ fun hr => ?_
    · exact hid.imp (fun he => he.symm) fun hd => ⟨rfl, hd⟩
    · cases hst.symm.trans hr
  have h₂ := h₁.setCancel { c with waiter := .over } hc rfl hw nofun
  have hx₂ : (w.setImport c.target { x with identity := none }).imports[c.target]? = some
      { x with identity := none } := Table.get_set_self hx
  obtain ⟨y, hy, -, -, hlater⟩ := h₁.pending c (List.mem_of_getElem? hc) hw
  cases hx₂.symm.trans hy
  exact h₂.confirm (h₂.undone (x := { x with identity := none }) hx₂ hst rfl hlater)

theorem Inv.rollback [DecidableEq I] (h : Inv w) {c : Cancel} (hc : w.cancels[k]? = some c)
    (hw : c.waiter = .waiting) (hx : w.imports[c.target]? = some x) (hst : x.stage = .ended) :
    Inv (w.rollback k c x) := by
  have hne : c.waiter ≠ .over := by rw [hw]; decide
  unfold World.rollback
  cases hv : w.verdict x with
  | clear => exact h.rollbackDone hc hne hx hst (verdict_eq_clear hv)
  | remove =>
    refine h.setCancel _ hc rfl hne fun _ y hy => ?_
    cases hx.symm.trans hy
    refine ⟨hst, h.own_of_remove hx ?_ hv⟩
    have hmem : w.cancels.any (fun d => d.target = c.target && d.waiter ≠ .over) = true :=
      List.any_eq_true.mpr ⟨c, List.mem_of_getElem? hc, by simp [hne]⟩
    unfold remembered
    rw [hmem, Bool.or_true]
  | refuse => exact h.setCancel _ hc rfl hne nofun

theorem Inv.rolledBack [DecidableEq M] (h : Inv w) {c : Cancel} (hc : w.cancels[k]? = some c)
    (hw : c.waiter = .removing) (hx : w.imports[c.target]? = some x) {ok : Bool} :
    Inv (w.rolledBack k c x ok) := by
  have hne : c.waiter ≠ .over := by rw [hw]; decide
  obtain ⟨hst, hown⟩ := h.rolling c (List.mem_of_getElem? hc) hw x hx
  unfold World.rolledBack
  split
  case isTrue =>
    have h₁ := h.rmtree hown
    exact h₁.rollbackDone (w := w.rmtree c.target x.model) hc hne hx hst
      (Or.inr (update_self ..))
  case isFalse => exact h.setCancel _ hc rfl hne nofun

theorem Inv.cancel (h : Inv w) (hj : w.jobs[j]? = some job) : Inv (w.cancel j job) := by
  unfold World.cancel
  cases hrec : w.records j with
  | none =>
    simp only
    split
    case isTrue => exact h
    case isFalse hdest =>
      refine h.confirm ⟨fun k y hy hyj hyp => ?_, fun k y hy hyj => ?_⟩
      · -- A peer import that is at work would have its record.
        by_contra hact
        have hact' : y.stage.active := Bool.of_not_eq_false hact
        have hrec' := h.unrecorded k y hy hyp (Stage.present_of_active hact')
          (Stage.not_over_of_active hact')
        rw [hyj, hrec] at hrec'
        cases hrec'
      · obtain ⟨repo, hrepo, -⟩ := h.of_placed hy
        obtain ⟨-, -, -, -, hy⟩ := hy
        obtain ⟨job', hj', hmodel⟩ := h.model k y hy
        cases hj.symm.trans (hyj ▸ hj')
        rw [← hmodel] at hrepo
        rw [hrepo] at hdest
        exact absurd rfl hdest
  | some i =>
    obtain ⟨x, hx, hxj, hp, hpr, hlater⟩ := h.recorded j i hrec
    simp only [hx]
    have h₁ : Inv (w.setImport i { x with cancel := true }) :=
      h.setImport hx ⟨rfl, rfl, rfl, Or.inl rfl, .refl _, Or.inl⟩ rfl (Or.inl rfl)
        fun hr => h.removing i x hx hr
    exact h₁.addCancel (j := j) hrec

/-! ## The steps of a job -/

/-- Jobs that wait for nothing. -/
theorem JobInv.quiet (hc : job.confirmed → w.Undone j) (hs : job.status ≠ .canceled)
    (hr : job.place ≠ .idle → job.place ≠ .over → job.status = .running)
    (hp : job.place.waits = false) (ha : job.answered = true → job.confirmed = true) :
    w.JobInv j job where
  confirmed := hc
  canceled hst := absurd hst hs
  running := hr
  request hw := by rw [hp] at hw; cases hw
  asking hpl := by rw [hpl] at hp; cases hp
  sent _ := ⟨fun hpl => (by rw [hpl] at hp; cases hp), fun hw => (by rw [hp] at hw; cases hw)⟩
  answered := ha

/-- A job ends. -/
theorem JobInv.close (h : w.JobInv j job) {st : Status}
    (hst : st = .canceled → w.Barren j job.confirmed) :
    w.JobInv j { job with status := st, place := .over } :=
  { h with
    canceled := hst
    running _ hp := absurd rfl hp
    request hw := by cases hw
    asking hpl := by cases hpl
    sent _ := ⟨nofun, nofun⟩ }

/-- Nothing of job `j` is under way or on the target. -/
theorem Unplaced.spec (hu : w.Unplaced j job.model) (h : Inv w) (hj : w.jobs[j]? = some job) :
    (∀ (i : ℕ) (x : Import M I), w.imports[i]? = some x → x.job = j → x.stage.isOver) ∧
      ∀ i x, w.Placed i x → x.job ≠ j := by
  refine ⟨fun i x hx => hu.1 x (List.mem_of_getElem? hx), fun i x hp hxj => ?_⟩
  obtain ⟨repo, hrepo, hi, -⟩ := h.of_placed hp
  obtain ⟨-, -, -, -, hx⟩ := hp
  obtain ⟨job', hj', hmodel⟩ := h.model i x hx
  cases hj.symm.trans (hxj ▸ hj')
  rw [← hmodel] at hrepo
  exact absurd (holds_eq_true_iff.mpr ⟨repo, i, x, hrepo, hi, hx, hxj⟩)
    (by rw [hu.2]; exact Bool.false_ne_true)

theorem Inv.send (h : Inv w) (hj : w.jobs[j]? = some job) (hp : job.place = .preparing)
    (hclean : w.CleanStep j job .dispatch) : Inv (w.send (.new j job)) := by
  obtain ⟨⟨hconfirmed, hcancels⟩, hu⟩ := hclean
  obtain ⟨hover, hnone⟩ := hu.spec h hj
  have hrun : job.status = .running :=
    (h.job j job hj).running (by rw [hp]; decide) (by rw [hp]; decide)
  have hlast : ∀ i k, k ≠ j → w.Last i k → (w.send (.new j job)).Last i k := by
    intro i k hk hl i' y hy hyk
    rcases Table.append_cases hy with hy | ⟨-, rfl⟩
    · exact hl i' y hy hyk
    · exact absurd hyk.symm hk
  have hplaced : ∀ i y, (w.send (.new j job)).Placed i y → w.Placed i y := by
    rintro i y ⟨m, repo, hrepo, hi, hy⟩
    obtain ⟨y₀, hy₀, -⟩ := h.placed m repo i hrepo hi
    cases (Table.get_append hy₀).symm.trans hy
    exact ⟨m, repo, hrepo, hi, hy₀⟩
  refine ⟨⟨?_, ?_, ?_, ?_, ?_⟩, ?_, ?_, ?_, ?_, ?_, h.own⟩
  · intro i x hx
    rcases Table.append_cases hx with hx | ⟨-, rfl⟩
    · exact h.model i x hx
    · exact ⟨job, hj, rfl⟩
  · intro i x hx ho
    rcases Table.append_cases hx with hx | ⟨rfl, rfl⟩
    · refine hlast i x.job (fun hxj => ?_) (h.last i x hx ho)
      rw [hover i x hx hxj] at ho
      cases ho
    · intro i' y hy _
      rcases Table.append_cases hy with hy | ⟨rfl, -⟩
      · exact Nat.le_of_lt (List.getElem?_eq_some_iff.mp hy).1
      · exact Nat.le_refl _
  · intro c hc hw
    obtain ⟨x, hx, hpeer, hpr, hlater⟩ := h.pending c hc hw
    refine ⟨x, Table.get_append hx, hpeer, hpr, fun i y hy hyj hyp hlt => ?_⟩
    rcases Table.append_cases hy with hy | ⟨-, rfl⟩
    · exact hlater i y hy hyj hyp hlt
    · exact absurd hyj.symm (hcancels c hc hw x hx)
  · intro k i hrec
    obtain ⟨x, hx, hxj, hpeer, hpr, hlater⟩ := h.recorded k i hrec
    refine ⟨x, Table.get_append hx, hxj, hpeer, hpr, fun i' y hy hyj hyp hlt => ?_⟩
    rcases Table.append_cases hy with hy | ⟨-, rfl⟩
    · exact hlater i' y hy hyj hyp hlt
    · rfl
  · intro i x hx hpeer hpr ho
    rcases Table.append_cases hx with hx | ⟨-, rfl⟩
    · exact h.unrecorded i x hx hpeer hpr ho
    · cases hpr
  · intro m repo i hrepo hi
    obtain ⟨x, hx, hm, hpast, hl, hid, hcomplete⟩ := h.placed m repo i hrepo hi
    refine ⟨x, Table.get_append hx, hm, hpast, hlast i x.job ?_ hl, hid, hcomplete⟩
    exact hnone i x ⟨m, repo, hrepo, hi, hx⟩
  · intro i x hx hr repo hrepo hid
    rcases Table.append_cases hx with hx | ⟨-, rfl⟩
    · exact h.kept i x hx hr repo hrepo hid
    · cases hid
  · intro i x hx hr
    rcases Table.append_cases hx with hx | ⟨-, rfl⟩
    · exact h.removing i x hx hr
    · cases hr
  · intro c hc hw x hx
    obtain ⟨y, hy, -⟩ := h.pending c hc (by rw [hw]; decide)
    obtain rfl := Option.some.inj ((Table.get_append hy).symm.trans hx)
    exact h.rolling c hc hw y hy
  · intro k y hy
    have hk := h.job k y hy
    have hother : y.place.waits → k ≠ j := by
      rintro hw rfl
      cases hj.symm.trans hy
      rw [hp] at hw
      cases hw
    constructor
    · intro hc
      refine ⟨fun i x hx hxk hxp => ?_, fun i x hx => (hk.confirmed hc).2 i x (hplaced i x hx)⟩
      rcases Table.append_cases hx with hx | ⟨-, rfl⟩
      · exact (hk.confirmed hc).1 i x hx hxk hxp
      · obtain rfl : j = k := hxk
        cases hj.symm.trans hy
        rw [hconfirmed job hj] at hc
        cases hc
    · intro hc
      refine ⟨fun i x hx hxk => ?_, fun i x hx => (hk.canceled hc).2 i x (hplaced i x hx)⟩
      rcases Table.append_cases hx with hx | ⟨-, rfl⟩
      · exact (hk.canceled hc).1 i x hx hxk
      · obtain rfl : j = k := hxk
        cases hj.symm.trans hy
        cases hrun.symm.trans hc
    · exact hk.running
    · intro hw
      obtain ⟨i, x, hr, hx, hxk, hxp, hl⟩ := hk.request hw
      exact ⟨i, x, hr, Table.get_append hx, hxk, hxp, hlast i k (hother hw) hl⟩
    · exact hk.asking
    · intro hpeer
      constructor
      · intro hv
        obtain ⟨i, x, hr, hx, hc⟩ := complete_eq_true_iff.mp ((hk.sent hpeer).1 hv)
        exact complete_eq_true_iff.mpr ⟨i, x, hr, Table.get_append hx, hc⟩
      · intro hw hc
        obtain ⟨i, x, hr, hx, -⟩ := hk.request hw
        obtain ⟨i', x', hr', hx', hc'⟩ := complete_eq_true_iff.mp hc
        cases hr.symm.trans hr'
        cases (Table.get_append hx).symm.trans hx'
        exact (hk.sent hpeer).2 hw (complete_eq_true_iff.mpr ⟨i, x, hr, hx, hc'⟩)
    · exact hk.answered

theorem Inv.dispatch (h : Inv w) (hj : w.jobs[j]? = some job) (hp : job.place = .preparing)
    (hclean : w.CleanStep j job .dispatch) :
    Inv ((w.send (.new j job)).setJob j
      { job with place := .importing, request := some w.imports.length }) := by
  have h₁ := h.send hj hp hclean
  have hj₁ := h₁.job j job hj
  have hnew : (w.send (.new j job)).imports[w.imports.length]? = some (Import.new j job) :=
    Table.get_append_length
  refine h₁.setJob hj rfl ⟨hj₁.confirmed, hj₁.canceled, fun _ _ => ?_, fun _ => ?_,
    nofun, fun _ => ⟨nofun, fun _ hc => ?_⟩, hj₁.answered⟩
  · exact hj₁.running (by rw [hp]; decide) (by rw [hp]; decide)
  · exact ⟨_, _, rfl, hnew, rfl, rfl, h₁.last _ _ hnew rfl⟩
  · obtain ⟨i, x, hr, hx, hc⟩ := complete_eq_true_iff.mp hc
    cases hr
    cases hnew.symm.trans hx
    cases hc

theorem Inv.enqueue (h : Inv w) :
    Inv { w with jobs := w.jobs ++ [⟨m, .queued, .idle, false, false, none, false, false, false⟩] }
    :=
  { h with
    model i x hx := by
      obtain ⟨job, hj, hm⟩ := h.model i x hx
      exact ⟨job, Table.get_append hj, hm⟩
    job j job hj := by
      rcases Table.append_cases hj with hj | ⟨-, rfl⟩
      · exact (h.job j job hj).congr rfl fun _ _ hrepo _ _ => hrepo
      · exact .quiet nofun nofun (fun hp => absurd rfl hp) rfl
          nofun }

/-- A relay job that is canceled before its whole stream is sent: its last import cannot end. -/
theorem Inv.relayed (h : Inv w) (hj : w.jobs[j]? = some job) (hw : job.place.waits)
    (hpeer : job.peer = false) (hc : w.complete job = false) : w.Barren j job.confirmed := by
  obtain ⟨i, x, hr, hx, hxj, hxp, hlast⟩ := (h.job j job hj).request hw
  have hxc : x.complete = false := by
    by_contra hn
    rw [complete_eq_true_iff.mpr ⟨i, x, hr, hx, Bool.of_not_eq_false hn⟩] at hc
    cases hc
  constructor
  · intro k y hy hyj
    by_cases ho : y.stage.isOver
    · exact Or.inl ho
    · obtain rfl := last_unique (h.last k y hy (eq_false_of_ne_true ho)) (hyj ▸ hlast) hy rfl hx
        (hxj.trans hyj.symm)
      cases hx.symm.trans hy
      exact Or.inr (Or.inl ⟨hxp.trans hpeer, hxc⟩)
  · intro k y hp hyj
    obtain ⟨repo, -, -, -, hyl, -, hcomplete⟩ := h.of_placed hp
    obtain ⟨-, -, -, -, hy⟩ := hp
    obtain rfl := last_unique hyl (hyj ▸ hlast) hy rfl hx (hxj.trans hyj.symm)
    cases hx.symm.trans hy
    rw [hcomplete (hxp.trans hpeer)] at hxc
    cases hxc

/-- A job whose cancellation was confirmed: its last import is a peer import, and undone. -/
theorem Inv.confirmedOver (h : Inv w) (hj : w.jobs[j]? = some job) (hp : job.place = .asking)
    (ha : job.answered) : w.Barren j job.confirmed := by
  have hji := h.job j job hj
  have hnone := (hji.confirmed (hji.answered ha)).2
  obtain ⟨i, x, -, hx, hxj, hxp, hlast⟩ := hji.request (by rw [hp]; rfl)
  have hpeer : x.peer := hxp.trans (hji.asking hp)
  constructor
  · intro k y hy hyj
    by_cases ho : y.stage.isOver
    · exact Or.inl ho
    · obtain rfl := last_unique (h.last k y hy (eq_false_of_ne_true ho)) (hyj ▸ hlast) hy rfl hx
        (hxj.trans hyj.symm)
      cases hx.symm.trans hy
      exact Or.inr (Or.inr ⟨hpeer, hji.answered ha⟩)
  · intro k y hq hyj
    have hyp := hnone k y hq hyj
    obtain ⟨repo, -, -, -, hyl, -⟩ := h.of_placed hq
    obtain ⟨-, -, -, -, hy⟩ := hq
    obtain rfl := last_unique hyl (hyj ▸ hlast) hy rfl hx (hxj.trans hyj.symm)
    cases hx.symm.trans hy
    cases hpeer.symm.trans hyp

/-- The last chunk of a relay job is sent. -/
theorem Inv.sent (h : Inv w) (hj : w.jobs[j]? = some job) (hp : job.place = .importing)
    (hevent : job.event = false) {x : Import M I} (hr : job.request = some i)
    (hx : w.imports[i]? = some x) : Inv (w.setImport i { x with complete := true }) := by
  obtain ⟨i', x', hr', hx', hxj, -⟩ := (h.job j job hj).request (by rw [hp]; rfl)
  cases hr.symm.trans hr'
  cases hx.symm.trans hx'
  refine h.setImport hx ⟨rfl, rfl, rfl, Or.inr ⟨rfl, job, by rw [hxj]; exact hj, hp, hevent⟩,
    .refl _, Or.inl⟩ rfl (Or.inl rfl) fun hr => h.removing i x hx hr

theorem Inv.jobStep (h : Inv w) (hj : w.jobs[j]? = some job) {s : Step}
    (hclean : w.CleanStep j job s) (hs : w.jobStep j job s = some w') : Inv w' := by
  have hji := h.job j job hj
  cases s with
  | run peer =>
    simp only [World.jobStep, Option.ite_none_right_eq_some, Option.some.injEq] at hs
    obtain ⟨-, rfl⟩ := hs
    exact h.setJob hj rfl (.quiet hji.confirmed nofun (fun _ _ => rfl) rfl
      nofun)
  | dispatch =>
    simp only [World.jobStep, Option.ite_none_right_eq_some, Option.some.injEq] at hs
    obtain ⟨hp, rfl⟩ := hs
    exact h.dispatch hj hp hclean
  | sent =>
    simp only [World.jobStep, Option.ite_none_right_eq_some, Bool.and_eq_true, decide_eq_true_eq,
      Bool.not_eq_true', Option.bind_eq_some_iff, Option.map_eq_some_iff] at hs
    obtain ⟨⟨⟨hp, -⟩, hevent⟩, i, hr, x, hx, rfl⟩ := hs
    exact h.sent hj hp hevent hr hx
  | imported =>
    simp only [World.jobStep, Option.ite_none_right_eq_some, Option.some.injEq, Bool.and_eq_true,
      Bool.or_eq_true, decide_eq_true_eq] at hs
    obtain ⟨⟨hp, hc⟩, rfl⟩ := hs
    have hw : job.place.waits := by rw [hp]; rfl
    refine h.setJob hj rfl ⟨hji.confirmed, hji.canceled, fun _ _ => ?_, fun _ => hji.request hw,
      nofun, fun hpeer => ⟨fun _ => ?_, fun _ => (hji.sent hpeer).2 hw⟩,
      hji.answered⟩
    · exact hji.running (by rw [hp]; decide) (by rw [hp]; decide)
    · exact hc.resolve_left (by rw [hpeer]; decide)
  | verified | refused | fail | drop =>
    simp only [World.jobStep, Option.ite_none_right_eq_some, Option.some.injEq] at hs
    obtain ⟨-, rfl⟩ := hs
    exact h.setJob hj rfl (hji.close nofun)
  | stopSeen =>
    obtain ⟨hevent, hs⟩ := Option.ite_none_left_eq_some.mp hs
    split at hs
    case isTrue hpeer =>
      simp only [Option.ite_none_right_eq_some, Option.some.injEq, Bool.or_eq_true,
        decide_eq_true_eq] at hs
      obtain ⟨hp, rfl⟩ := hs
      have hw : job.place.waits := by rcases hp with hp | hp <;> rw [hp] <;> rfl
      refine h.setJob hj rfl ⟨hji.confirmed, hji.canceled, fun _ _ => ?_,
        fun _ => hji.request hw, fun _ => hpeer, fun hrelay => ?_, hji.answered⟩
      · rcases hp with hp | hp <;>
          exact hji.running (by rw [hp]; decide) (by rw [hp]; decide)
      · cases hpeer.symm.trans hrelay
    case isFalse hpeer =>
      simp only [Option.ite_none_right_eq_some, Option.some.injEq, Bool.or_eq_true,
        Bool.and_eq_true, Bool.not_eq_true', decide_eq_true_eq] at hs
      obtain ⟨hp, rfl⟩ := hs
      have hrelay : job.peer = false := eq_false_of_ne_true hpeer
      refine h.setJob hj rfl (hji.close fun _ => ?_)
      rcases hp with ⟨hp, hc⟩ | hp
      · exact h.relayed hj (by rw [hp]; rfl) hrelay hc
      · -- Its stream is all sent, so nobody cancels it.
        have := (hji.sent hrelay).2 (by rw [hp]; rfl) ((hji.sent hrelay).1 hp)
        rw [this] at hevent
        exact absurd rfl hevent
  | confirmed =>
    simp only [World.jobStep, Option.ite_none_right_eq_some, Option.some.injEq, Bool.and_eq_true,
      decide_eq_true_eq] at hs
    obtain ⟨⟨hp, ha⟩, rfl⟩ := hs
    exact h.setJob hj rfl (hji.close fun _ => h.confirmedOver hj hp ha)
  | shutdown =>
    simp only [World.jobStep, Option.ite_none_right_eq_some, Option.some.injEq] at hs
    obtain ⟨-, rfl⟩ := hs
    exact h.setJob hj rfl (.quiet hji.confirmed nofun (fun hp => absurd rfl hp)
      rfl hji.answered)
  | stop =>
    simp only [World.jobStep] at hs
    split at hs
    case h_1 hst =>
      cases hs
      refine h.setJob hj rfl (hji.close fun _ => ?_)
      obtain ⟨hover, hnone⟩ := (hclean.1 hst).spec h hj
      exact ⟨fun i x hx hxj => Or.inl (hover i x hx hxj), hnone⟩
    case h_2 hst =>
      cases hs
      refine h.setJob hj rfl { hji with sent := fun hrelay => ⟨(hji.sent hrelay).1,
          fun _ hc => ?_⟩ }
      have := hclean.2 hst hrelay
      cases hc.symm.trans this
    case h_3 =>
      cases hs
      exact h

/-! ## Runs -/

theorem inv_init : Inv (World.init : World M I) where
  model i x hx := by cases hx
  last i x hx := by cases hx
  pending c hc := by cases hc
  recorded j i h := by cases h
  unrecorded i x hx := by cases hx
  placed m repo i h := by cases h
  kept i x hx := by cases hx
  removing i x hx := by cases hx
  rolling c hc := by cases hc
  job j job hj := by cases hj
  own := rfl

variable [DecidableEq M] [DecidableEq I]

theorem Inv.step (h : Inv w) {e : Event M I} (hclean : w.Clean e) (hs : w.step e = some w') :
    Inv w' := by
  cases e with
  | enqueue m =>
    cases hs
    exact h.enqueue
  | job j s =>
    obtain ⟨job, hj, hs⟩ := Option.bind_eq_some_iff.mp hs
    exact h.jobStep hj (hclean job hj) hs
  | arrive i =>
    obtain ⟨x, hx, hs⟩ := Option.bind_eq_some_iff.mp hs
    obtain ⟨hst, rfl⟩ := guard_some hs
    exact h.arrive hx hst (hclean x hx)
  | lose i =>
    obtain ⟨x, hx, hs⟩ := Option.bind_eq_some_iff.mp hs
    obtain ⟨hst, rfl⟩ := guard_some hs
    refine h.setStage hx ⟨fun ho => ?_, fun hp => ?_, fun hp => ?_⟩ (by rw [hst]; rfl)
      nofun
    · rw [hst] at ho; cases ho
    · rw [hst] at hp; cases hp
    · rw [hst] at hp; cases hp
  | abort i | leave i =>
    obtain ⟨x, hx, hs⟩ := Option.bind_eq_some_iff.mp hs
    obtain ⟨hst, rfl⟩ := guard_some hs
    exact h.ended hx (by rw [hst]; rfl)
  | store i id =>
    obtain ⟨x, hx, hs⟩ := Option.bind_eq_some_iff.mp hs
    obtain ⟨hst, rfl⟩ := guard_some hs
    simp only [Bool.and_eq_true, Bool.or_eq_true, decide_eq_true_eq] at hst
    exact h.store hx hst.1.1 hst.2 (hclean x hx)
  | returned i =>
    obtain ⟨x, hx, hs⟩ := Option.bind_eq_some_iff.mp hs
    obtain ⟨hst, rfl⟩ := guard_some hs
    split
    case isTrue => exact h.settle hx hst
    case isFalse => exact h.ended hx (by rw [hst]; rfl)
  | removed i ok =>
    obtain ⟨x, hx, hs⟩ := Option.bind_eq_some_iff.mp hs
    obtain ⟨hst, rfl⟩ := guard_some hs
    exact h.removed hx hst
  | cancel j =>
    obtain ⟨job, hj, hs⟩ := Option.bind_eq_some_iff.mp hs
    obtain ⟨-, rfl⟩ := guard_some hs
    exact h.cancel hj
  | rollback k =>
    obtain ⟨c, hc, hs⟩ := Option.bind_eq_some_iff.mp hs
    obtain ⟨x, hx, hs⟩ := Option.bind_eq_some_iff.mp hs
    obtain ⟨hst, rfl⟩ := guard_some hs
    simp only [Bool.and_eq_true, decide_eq_true_eq] at hst
    exact h.rollback hc hst.1 hx hst.2
  | rolledBack k ok =>
    obtain ⟨c, hc, hs⟩ := Option.bind_eq_some_iff.mp hs
    obtain ⟨x, hx, hs⟩ := Option.bind_eq_some_iff.mp hs
    obtain ⟨hst, rfl⟩ := guard_some hs
    exact h.rolledBack hc hst hx
  | forget j =>
    obtain ⟨i, hrec, hs⟩ := Option.bind_eq_some_iff.mp hs
    obtain ⟨x, hx, hs⟩ := Option.bind_eq_some_iff.mp hs
    obtain ⟨hst, rfl⟩ := guard_some hs
    exact h.forget hrec hx hst
  | place m id =>
    obtain ⟨-, rfl⟩ := guard_some hs
    exact h.place hclean
  | remove m =>
    cases hs
    exact h.shrink (fun m' repo hrepo => (update_none_cases hrepo).2) h.own

/-! ## What is canceled stays canceled -/

omit [DecidableEq M] [DecidableEq I]

/-- A job that was canceled still is, and so is what was confirmed. -/
def Follows (w w' : World M I) : Prop :=
  ∀ (j : ℕ) (job : Job M), w.jobs[j]? = some job → ∃ job', w'.jobs[j]? = some job' ∧
    (job.status = .canceled → job'.status = .canceled) ∧
    (job.confirmed → job'.confirmed)

theorem Follows.of_jobs (h : w'.jobs = w.jobs) : Follows w w' :=
  fun _ job hj => ⟨job, h ▸ hj, fun hs => hs, fun hc => hc⟩

theorem Follows.trans {u : World M I} (h : Follows w w') (h' : Follows w' u) : Follows w u := by
  intro j job hj
  obtain ⟨job', hj', hs, hc⟩ := h j job hj
  obtain ⟨job'', hj'', hs', hc'⟩ := h' j job' hj'
  exact ⟨job'', hj'', fun h => hs' (hs h), fun h => hc' (hc h)⟩

theorem Follows.setJob (hj : w.jobs[j]? = some job)
    (hs : job.status = .canceled → job'.status = .canceled)
    (hc : job.confirmed → job'.confirmed) : Follows w (w.setJob j job') := by
  intro k y hy
  by_cases hk : k = j
  · subst hk
    cases hj.symm.trans hy
    exact ⟨job', Table.get_set_self hj, hs, hc⟩
  · exact ⟨y, Table.get_set_ne hy hk, fun h => h, fun h => h⟩

theorem Follows.confirm (h : w'.jobs = w.jobs) : Follows w (w'.confirm j) := by
  unfold World.confirm
  cases hj : w'.jobs[j]? with
  | none => exact .of_jobs h
  | some job => exact (Follows.of_jobs h).trans (.setJob hj (fun h => h) fun _ => rfl)

/-- A job at work was not canceled. -/
theorem Inv.not_canceled (h : Inv w) (hj : w.jobs[j]? = some job) (hi : job.place ≠ .idle)
    (ho : job.place ≠ .over) : job.status ≠ .canceled := by
  rw [(h.job j job hj).running hi ho]
  decide

theorem Inv.follows_jobStep (h : Inv w) (hj : w.jobs[j]? = some job) {s : Step}
    (hs : w.jobStep j job s = some w') : Follows w w' := by
  have hwork : ∀ (job' : Job M) (p : Place), job.place = p → p ≠ .idle → p ≠ .over →
      job'.confirmed = job.confirmed → Follows w (w.setJob j job') := by
    intro job' p hp hi ho hc
    refine .setJob hj (fun hst => absurd hst ?_) fun hc' => hc.trans hc'
    exact h.not_canceled hj (hp ▸ hi) (hp ▸ ho)
  cases s <;> simp only [World.jobStep] at hs
  case run | shutdown | drop =>
    obtain ⟨hst, rfl⟩ := guard_some hs
    refine .setJob hj (fun hc => ?_) fun hc => hc
    cases hst.symm.trans hc
  case dispatch =>
    obtain ⟨hp, rfl⟩ := guard_some hs
    refine .setJob (w := w.send (.new j job)) hj (fun hst => hst) fun hc => hc
  case sent =>
    simp only [Option.ite_none_right_eq_some, Option.bind_eq_some_iff, Option.map_eq_some_iff] at hs
    obtain ⟨-, i, -, x, -, rfl⟩ := hs
    exact .of_jobs rfl
  case imported =>
    obtain ⟨hp, rfl⟩ := guard_some hs
    exact .setJob hj (fun hst => hst) fun hc => hc
  case verified =>
    simp only [Option.ite_none_right_eq_some, Option.some.injEq, Bool.and_eq_true,
      decide_eq_true_eq] at hs
    obtain ⟨⟨hp, -⟩, rfl⟩ := hs
    exact hwork _ _ hp (by decide) (by decide) rfl
  case stopSeen =>
    obtain ⟨_, hs⟩ := Option.ite_none_left_eq_some.mp hs
    split at hs <;> obtain ⟨-, hs⟩ := Option.ite_none_right_eq_some.mp hs <;>
      cases hs
    · exact .setJob hj (fun hst => hst) fun hc => hc
    · exact .setJob hj (fun _ => rfl) fun hc => hc
  case confirmed =>
    obtain ⟨-, rfl⟩ := guard_some hs
    exact .setJob hj (fun _ => rfl) fun hc => hc
  case refused =>
    obtain ⟨hp, rfl⟩ := guard_some hs
    exact hwork _ _ hp (by decide) (by decide) rfl
  case fail =>
    simp only [Option.ite_none_right_eq_some, Option.some.injEq, Bool.or_eq_true,
      decide_eq_true_eq] at hs
    obtain ⟨(hp | hp) | hp, rfl⟩ := hs <;> exact hwork _ _ hp (by decide) (by decide) rfl
  case stop =>
    split at hs <;> cases hs
    · exact .setJob hj (fun _ => rfl) fun hc => hc
    · exact .setJob hj (fun hst => hst) fun hc => hc
    · exact .of_jobs rfl

variable [DecidableEq M] [DecidableEq I]

theorem Inv.follows (h : Inv w) {e : Event M I} (hs : w.step e = some w') : Follows w w' := by
  cases e with
  | enqueue m =>
    cases hs
    exact fun j job hj => ⟨job, Table.get_append hj, fun hst => hst, fun hc => hc⟩
  | job j s =>
    obtain ⟨job, hj, hs⟩ := Option.bind_eq_some_iff.mp hs
    exact h.follows_jobStep hj hs
  | cancel j =>
    obtain ⟨job, hj, hs⟩ := Option.bind_eq_some_iff.mp hs
    obtain ⟨-, rfl⟩ := guard_some hs
    unfold World.cancel
    split
    case h_1 =>
      split
      · exact .of_jobs rfl
      · exact .confirm rfl
    case h_2 => split <;> exact .of_jobs rfl
  | rollback k =>
    obtain ⟨c, hc, hs⟩ := Option.bind_eq_some_iff.mp hs
    obtain ⟨x, hx, hs⟩ := Option.bind_eq_some_iff.mp hs
    obtain ⟨-, rfl⟩ := guard_some hs
    unfold World.rollback
    split
    case h_1 => exact .confirm rfl
    case h_2 | h_3 => exact .of_jobs rfl
  | rolledBack k ok =>
    obtain ⟨c, hc, hs⟩ := Option.bind_eq_some_iff.mp hs
    obtain ⟨x, hx, hs⟩ := Option.bind_eq_some_iff.mp hs
    obtain ⟨-, rfl⟩ := guard_some hs
    unfold World.rolledBack
    split
    case isTrue => exact .confirm rfl
    case isFalse => exact .of_jobs rfl
  | arrive i =>
    obtain ⟨x, hx, hs⟩ := Option.bind_eq_some_iff.mp hs
    obtain ⟨-, rfl⟩ := guard_some hs
    split <;> exact .of_jobs rfl
  | returned i =>
    obtain ⟨x, hx, hs⟩ := Option.bind_eq_some_iff.mp hs
    obtain ⟨-, rfl⟩ := guard_some hs
    split
    case isTrue =>
      unfold World.settle
      split <;> exact .of_jobs rfl
    case isFalse => exact .of_jobs rfl
  | removed i ok =>
    obtain ⟨x, hx, hs⟩ := Option.bind_eq_some_iff.mp hs
    obtain ⟨-, rfl⟩ := guard_some hs
    unfold World.removed
    split <;> exact .of_jobs rfl
  | lose i | abort i | store i id | leave i =>
    obtain ⟨x, hx, hs⟩ := Option.bind_eq_some_iff.mp hs
    obtain ⟨-, rfl⟩ := guard_some hs
    exact .of_jobs rfl
  | forget j =>
    obtain ⟨i, -, hs⟩ := Option.bind_eq_some_iff.mp hs
    obtain ⟨x, -, hs⟩ := Option.bind_eq_some_iff.mp hs
    obtain ⟨-, rfl⟩ := guard_some hs
    exact .of_jobs rfl
  | place m id =>
    obtain ⟨-, rfl⟩ := guard_some hs
    exact .of_jobs rfl
  | remove m =>
    cases hs
    exact .of_jobs rfl

theorem Reach.inv (h : Reach World.step World.Clean (World.init : World M I) w) : Inv w :=
  h.invariant inv_init fun _ _ _ hi hc hs => hi.step hc hs

theorem Reach.follows (h : Reach World.step World.Clean w w') (hi : Inv w) : Follows w w' :=
  (h.invariant (P := fun u => Inv u ∧ Follows w u) ⟨hi, .of_jobs rfl⟩ fun _ _ _ hu hc hs =>
    ⟨hu.1.step hc hs, hu.2.trans (hu.1.follows hs)⟩).2

/-- **A canceled transfer leaves nothing on its target.** In a run whose steps are all clean, every
state is sound; and of what was canceled or confirmed in it, nothing is on the target later. -/
theorem rolled_back (h : Reach World.step World.Clean (World.init : World M I) w)
    (h' : Reach World.step World.Clean w w') :
    w.Sound ∧ ∀ (j : ℕ) (job : Job M), w.jobs[j]? = some job →
      (job.status = .canceled → ∀ m, w'.holds j m = false) ∧
      (job.confirmed = true → ∀ (m : M) (repo : Repo I) (i : ℕ) (x : Import M I),
        w'.dest m = some repo → repo.placer = some i → w'.imports[i]? = some x → x.job = j →
        x.peer = false) := by
  have hinv := Reach.inv h
  refine ⟨hinv.sound, fun j job hj => ?_⟩
  have hsound := (Reach.inv (h.trans h')).sound
  obtain ⟨job', hj', hst, hc⟩ := Reach.follows h' hinv j job hj
  exact ⟨fun h => hsound.canceled j job' hj' (hst h),
    fun h => hsound.confirmed j job' hj' (hc h)⟩

end World

/-! ## Runs -/

section Runs

open World

/-- A transfer is canceled after its repository was registered; the target removes it. -/
def canceledPlaced : List (Event ℕ ℕ) :=
  [.enqueue 0, .job 0 (.run true), .job 0 .dispatch, .arrive 0, .job 0 .stop, .store 0 7,
    .job 0 .stopSeen, .cancel 0, .returned 0, .removed 0 true, .rollback 0, .job 0 .confirmed]

/-- After that, and when someone else has the model there: nothing that the transfer placed. -/
theorem rolled_back_placed : ∃ (w w' : World ℕ ℕ) (job : Job ℕ),
    Reach World.step Clean World.init w ∧ Reach World.step Clean w w' ∧ w.jobs[0]? = some job ∧
      job.status = .canceled ∧ job.confirmed = true ∧ (w'.dest 0).isSome = true ∧ w.Sound ∧
      ∀ m, w'.holds 0 m = false := by
  have hrun : (replay World.step Clean World.init canceledPlaced).any (fun w =>
      (replay World.step Clean w [.place 0 7]).any fun w' =>
        w.jobs[0]?.any (fun job => job.status = .canceled && job.confirmed) &&
          (w'.dest 0).isSome) = true := by decide +kernel
  obtain ⟨w, hr, hw⟩ := reach_any hrun
  obtain ⟨w', hr', hw'⟩ := reach_any hw
  simp only [Bool.and_eq_true, Option.any_eq_true, decide_eq_true_eq] at hw'
  obtain ⟨⟨job, hj, hst, hc⟩, hsome⟩ := hw'
  obtain ⟨hsound, hlater⟩ := rolled_back hr hr'
  exact ⟨w, w', job, hr, hr', hj, hst, hc, hsome, hsound, (hlater 0 job hj).1 hst⟩

/-- The request to cancel is processed before the import request. -/
def canceledEarly : List (Event ℕ ℕ) :=
  [.enqueue 0, .job 0 (.run true), .job 0 .dispatch, .job 0 .stop, .job 0 .stopSeen, .cancel 0,
    .job 0 .confirmed, .arrive 0, .store 0 7, .returned 0]

/-- **A canceled import registers**: its rollback was confirmed before it arrived, and nothing is
kept of that. -/
theorem registered_late : ∃ w : World ℕ ℕ, Reach World.step Free World.init w ∧ ¬w.Sound := by
  have hrun : (replay World.step Free World.init canceledEarly).any (fun w =>
      w.jobs[0]?.any (fun job => job.status = .canceled) && w.holds 0 0) = true := by
    decide +kernel
  obtain ⟨w, hr, hw⟩ := reach_any hrun
  simp only [Bool.and_eq_true, Option.any_eq_true, decide_eq_true_eq] at hw
  obtain ⟨⟨job, hj, hst⟩, hholds⟩ := hw
  refine ⟨w, hr, fun hsound => ?_⟩
  rw [hsound.canceled 0 job hj hst 0] at hholds
  cases hholds

end Runs

end SparkDeck.Transfer
