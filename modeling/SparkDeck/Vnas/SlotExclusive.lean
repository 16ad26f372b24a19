import SparkDeck.Vnas.Slot

/-!
# The dispatch slot is exclusive

`Good` is the invariant of the runs that meet `Clean`: the lock and its one holder (`Locking`), the
tasks with their operations and flags (`Flow`), and what each operation remembers (`Sound`). There is
one lemma on `Flow` for each way an operation moves, and one on `Good` for each label.

* `slot_exclusive`: every state reached is `Exclusive`.
* `slot_outlived`: what `Clean` leaves out breaks it.
-/

open Transition Function

namespace SparkDeck.Vnas.Slot

/-- What an operation remembers. -/
structure Operation.Sound {T O : Type*} (x : Operation T O) : Prop where
  releases : x.releases = if x.stage.ends && x.acquired then 1 else 0
  settling : x.stage = .settling → x.acquired ∧ x.cancellable
  inside : x.stage = .inside → x.acquired
  bare : x.stage.body = true → x.stage ≠ .inside → x.acquired = false
  direct : x.stage = .waiting → x.cancellable = false → x.acquired = false
  unentered : x.stage.waits = true → x.entered = false
  caught : x.caught = true → x.entered = false ∧ x.event = true ∧ x.cancellable = true ∧
    x.stage.body = false ∧
    ∀ r, x.stage = .cleanup r ∨ x.stage = .finished r → r = .canceled ∨ x.thrown

namespace World

variable {T O : Type*}

/-- The lock and its holder. -/
structure Locking (g : World T O) : Prop where
  locked : g.locked ↔ ∃ o x, g.ops o = some x ∧ x.Holds
  single : ∀ o x o' x', g.ops o = some x → g.ops o' = some x' → x.Holds → x'.Holds → o = o'

/-- The tasks, their operations and their flags. -/
structure Flow (g : World T O) : Prop where
  flags : ∀ t ∈ g.tasks, ∀ h, g.held t = some h → ∃ y, g.ops h = some y ∧ y.stage = .inside
  inside : ∀ o x, g.ops o = some x → x.stage = .inside → g.held x.task = some o
  covered : ∀ o x h, g.ops o = some x → x.stage = .covered h → g.held x.task = some h
  waiting : ∀ o x, g.ops o = some x → x.stage.waits → g.held x.task = none
  filed : ∀ o x, g.ops o = some x → (o ∈ g.stack x.task ↔ x.stage.ends = false)
  own : ∀ t, ∀ o ∈ g.stack t, ∃ x, g.ops o = some x ∧ x.task = t
  nodup : ∀ t, (g.stack t).Nodup
  alive : ∀ t, g.stack t ≠ [] → t ∈ g.tasks
  below : ∀ t, ∀ p ∈ (g.stack t).tail, ∀ x, g.ops p = some x → x.stage.body
  /-- No operation is under the slot of one that was begun later. -/
  order : ∀ t, (g.stack t).Pairwise fun o p => ∀ x, g.ops p = some x → x.stage ≠ .covered o

structure Good (g : World T O) : Prop where
  locking : g.Locking
  flow : g.Flow
  sound : ∀ o x, g.ops o = some x → x.Sound

variable {g g' : World T O} {o : O} {x x' : Operation T O} {t : T}

theorem Good.exclusive (h : g.Good) : g.Exclusive where
  single o x o' x' ho ho' hin hin' := by
    have hholds : ∀ {o x}, g.ops o = some x → x.stage = .inside → x.Holds := fun hx hs =>
      ⟨(h.sound _ _ hx).inside hs, by simp [(h.sound _ _ hx).releases, hs, Stage.ends]⟩
    exact h.locking.single o x o' x' ho ho' (hholds ho hin) (hholds ho' hin')
  covered o x k ho hs := by
    have hfiled : o ∈ g.stack x.task := (h.flow.filed o x ho).mpr (by simp [hs, Stage.ends])
    exact h.flow.flags x.task (h.flow.alive _ (List.ne_nil_of_mem hfiled)) k
      (h.flow.covered o x k ho hs)
  once o x ho := by
    have hr := (h.sound o x ho).releases
    refine ⟨?_, fun h1 => ?_, fun r hs hacq => ?_⟩
    · rw [hr]
      split <;> omega
    · by_contra hacq
      simp [hr, hacq] at h1
    · simp [hr, hs, hacq, Stage.ends]
  free hl := by
    obtain ⟨o, x, ho, hacq, hrel⟩ := h.locking.locked.mp hl
    refine ⟨o, x, ho, ⟨hacq, hrel⟩, ?_⟩
    by_contra hend
    simp [(h.sound o x ho).releases, hend, hacq] at hrel
  canceled o x ho hc := by
    obtain ⟨hent, -, -, -, hr⟩ := (h.sound o x ho).caught hc
    exact ⟨hent, fun r hs => hr r (.inr hs)⟩

theorem good_init : (init : World T O).Good where
  locking := ⟨by simp [init], by simp [init]⟩
  flow := ⟨by simp [init], by simp [init], by simp [init], by simp [init], by simp [init],
    by simp [init], by simp [init], by simp [init], by simp [init], by simp [init]⟩
  sound := by simp [init]

theorem start_cases (g : World T O) (t : T) (capped : Bool) :
    g.start t capped = .uncapped ∨ (∃ k, g.start t capped = .covered k ∧ g.held t = some k) ∨
      g.start t capped = .waiting ∧ g.held t = none := by
  unfold start
  cases capped with
  | false => exact .inl rfl
  | true =>
    cases hk : g.held t with
    | none => exact .inr (.inr ⟨rfl, rfl⟩)
    | some k => exact .inr (.inl ⟨k, rfl, rfl⟩)

theorem Flow.of_waits (h : g.Flow) (ho : g.ops o = some x) (hw : x.stage.waits) :
    (g.stack x.task).head? = some o := by
  have hend : x.stage.ends = false := by cases hs : x.stage <;> simp_all [Stage.waits, Stage.ends]
  have hbody : x.stage.body = false := by cases hs : x.stage <;> simp_all [Stage.waits, Stage.body]
  have hmem := (h.filed o x ho).mpr hend
  have hbelow := h.below x.task o
  cases hst : g.stack x.task with
  | nil => simp [hst] at hmem
  | cons p rest =>
    rw [hst] at hmem hbelow
    rcases List.mem_cons.mp hmem with rfl | hrest
    · rfl
    · simp [hbelow hrest x ho] at hbody

theorem Flow.lock (h : g.Flow) (b : Bool) : ({ g with locked := b } : World T O).Flow :=
  { h with }

/-! ## The lock -/

theorem holds_iff (ho : g.ops o = some x) (hx : x'.Holds ↔ x.Holds) :
    x'.Holds ↔ ∃ y, g.ops o = some y ∧ y.Holds := by
  rw [hx]
  constructor
  · intro hh
    exact ⟨x, ho, hh⟩
  · rintro ⟨y, hy, hh⟩
    obtain rfl : x = y := Option.some.inj (ho.symm.trans hy)
    exact hh

theorem Locking.same (h : g.Locking) (hl : g'.locked = g.locked) (hops : g'.ops = g.ops) :
    g'.Locking := by
  refine ⟨?_, ?_⟩
  · rw [hl, hops]
    exact h.locked
  · rw [hops]
    exact h.single

variable [DecidableEq O]

theorem get_put (p : O) : (g.put o x).ops p = if p = o then some x else g.ops p :=
  update_apply ..

theorem put_cases {p : O} {z : Operation T O} (hp : (g.put o x').ops p = some z) :
    p = o ∧ z = x' ∨ p ≠ o ∧ g.ops p = some z := by
  rw [get_put] at hp
  split at hp
  case isTrue he => exact .inl ⟨he, (Option.some.inj hp).symm⟩
  case isFalse he => exact .inr ⟨he, hp⟩

theorem Locking.keep (h : g.Locking) (hops : g'.ops = (g.put o x').ops)
    (hl : g'.locked = g.locked) (hx : x'.Holds ↔ ∃ x, g.ops o = some x ∧ x.Holds) :
    g'.Locking := by
  have hback : ∀ {p y}, g'.ops p = some y → y.Holds → ∃ z, g.ops p = some z ∧ z.Holds := by
    intro p y hp hy
    rw [hops, get_put] at hp
    split at hp
    case isTrue he =>
      cases hp
      exact he ▸ hx.mp hy
    case isFalse => exact ⟨y, hp, hy⟩
  refine ⟨?_, fun p y p' y' hp hp' hy hy' => ?_⟩
  · rw [hl, h.locked]
    constructor
    · rintro ⟨p, y, hp, hy⟩
      by_cases he : p = o
      · subst he
        exact ⟨p, x', by rw [hops, get_put, if_pos rfl], hx.mpr ⟨y, hp, hy⟩⟩
      · exact ⟨p, y, by rw [hops, get_put, if_neg he, hp], hy⟩
    · rintro ⟨p, y, hp, hy⟩
      obtain ⟨z, hz, hzh⟩ := hback hp hy
      exact ⟨p, z, hz, hzh⟩
  · obtain ⟨z, hz, hzh⟩ := hback hp hy
    obtain ⟨z', hz', hzh'⟩ := hback hp' hy'
    exact h.single p z p' z' hz hz' hzh hzh'

theorem Locking.acquire (h : g.Locking) (hops : g'.ops = (g.put o x').ops)
    (hl : g'.locked = true) (hfree : g.locked = false) (hx : x'.Holds) : g'.Locking := by
  have hnone : ∀ {p y}, g.ops p = some y → ¬y.Holds := by
    intro p y hp hy
    simp [h.locked.mpr ⟨p, y, hp, hy⟩] at hfree
  have honly : ∀ {p y}, g'.ops p = some y → y.Holds → p = o := by
    intro p y hp hy
    rw [hops, get_put] at hp
    by_contra he
    rw [if_neg he] at hp
    exact hnone hp hy
  refine ⟨⟨fun _ => ⟨o, x', by rw [hops, get_put, if_pos rfl], hx⟩, fun _ => hl⟩,
    fun p y p' y' hp hp' hy hy' => ?_⟩
  exact (honly hp hy).trans (honly hp' hy').symm

theorem Locking.release (h : g.Locking) (hops : g'.ops = (g.put o x').ops)
    (hl : g'.locked = false) (ho : g.ops o = some x) (hx : x.Holds) (hx' : ¬x'.Holds) :
    g'.Locking := by
  have hnone : ∀ {p y}, g'.ops p = some y → ¬y.Holds := by
    intro p y hp hy
    rw [hops, get_put] at hp
    split at hp
    case isTrue =>
      cases hp
      exact hx' hy
    case isFalse he => exact he (h.single p y o x hp ho hy hx)
  refine ⟨⟨fun hl' => ?_, fun ⟨p, y, hp, hy⟩ => absurd hy (hnone hp)⟩,
    fun p y _ _ hp _ hy _ => absurd hy (hnone hp)⟩
  simp [hl] at hl'

/-! ## Tasks and operations -/

theorem top_cases (h : g.top o = some x) : g.ops o = some x ∧ (g.stack x.task).head? = some o := by
  unfold top at h
  split at h
  case h_1 y hy =>
    obtain ⟨hc, rfl⟩ := guard_some h
    exact ⟨hy, hc⟩
  case h_2 => cases h

/-- An operation goes on, outside the body. -/
theorem Flow.keep (h : g.Flow) (ho : g.ops o = some x) (htask : x'.task = x.task)
    (hin : x'.stage = .inside ↔ x.stage = .inside)
    (hcov : ∀ k, x'.stage = .covered k → x.stage = .covered k)
    (hwait : x'.stage.waits → x.stage.waits) (hend : x'.stage.ends = x.stage.ends)
    (hbody : x.stage.body → x'.stage.body) : (g.put o x').Flow where
  flags t ht k hk := by
    obtain ⟨y, hy, hs⟩ := h.flags t ht k hk
    by_cases he : k = o
    · subst he
      obtain rfl : x = y := Option.some.inj (ho.symm.trans hy)
      exact ⟨x', by rw [get_put, if_pos rfl], hin.mpr hs⟩
    · exact ⟨y, by rw [get_put, if_neg he, hy], hs⟩
  inside p y hp hs := by
    rw [get_put] at hp
    split at hp
    case isTrue he =>
      cases hp
      exact htask ▸ he ▸ h.inside o x ho (hin.mp hs)
    case isFalse => exact h.inside p y hp hs
  covered p y k hp hs := by
    rw [get_put] at hp
    split at hp
    case isTrue =>
      cases hp
      exact htask ▸ h.covered o x k ho (hcov k hs)
    case isFalse => exact h.covered p y k hp hs
  waiting p y hp hs := by
    rw [get_put] at hp
    split at hp
    case isTrue =>
      cases hp
      exact htask ▸ h.waiting o x ho (hwait hs)
    case isFalse => exact h.waiting p y hp hs
  filed p y hp := by
    rw [get_put] at hp
    split at hp
    case isTrue he =>
      cases hp
      rw [he, hend, htask]
      exact h.filed o x ho
    case isFalse => exact h.filed p y hp
  own t p hp := by
    obtain ⟨y, hy, hyt⟩ := h.own t p hp
    by_cases he : p = o
    · subst he
      obtain rfl : x = y := Option.some.inj (ho.symm.trans hy)
      exact ⟨x', by rw [get_put, if_pos rfl], htask.trans hyt⟩
    · exact ⟨y, by rw [get_put, if_neg he, hy], hyt⟩
  nodup := h.nodup
  alive := h.alive
  below t p hp y hy := by
    rw [get_put] at hy
    split at hy
    case isTrue he =>
      cases hy
      exact hbody (h.below t p hp x (he ▸ ho))
    case isFalse => exact h.below t p hp y hy
  order t := by
    refine (h.order t).imp fun {q p} hqp y hy => ?_
    rw [get_put] at hy
    split at hy
    case isTrue he =>
      cases hy
      exact fun hs => hqp x (he ▸ ho) (hcov q hs)
    case isFalse => exact hqp y hy

variable [DecidableEq T]

omit [DecidableEq O] in
theorem Flow.exit (h : g.Flow) (hstack : g.stack t = []) :
    ({ g with tasks := g.tasks.erase t } : World T O).Flow :=
  { h with
    flags u hu := h.flags u (List.mem_of_mem_erase hu)
    alive u hu := by
      have hne : u ≠ t := by
        rintro rfl
        exact hu hstack
      exact (List.mem_erase_of_ne hne).mpr (h.alive u hu) }

omit [DecidableEq O] in
theorem Flow.spawn (h : g.Flow) {c : T} {f : Option O} (hstack : g.stack c = [])
    (hf : ∀ k, f = some k → ∃ y, g.ops k = some y ∧ y.stage = .inside) :
    ({ g with tasks := c :: g.tasks, held := update g.held c f } : World T O).Flow :=
  { h with
    flags u hu k hk := by
      change update g.held c f u = some k at hk
      rw [update_apply] at hk
      split at hk
      case isTrue => exact hf k hk
      case isFalse hne => exact h.flags u ((List.mem_cons.mp hu).resolve_left hne) k hk
    inside p z hp hz := by
      have hne : z.task ≠ c := by
        rintro rfl
        have hmem := (h.filed p z hp).mpr (by simp [hz, Stage.ends])
        simp [hstack] at hmem
      exact (update_of_ne hne ..).trans (h.inside p z hp hz)
    covered p z k hp hz := by
      have hne : z.task ≠ c := by
        rintro rfl
        have hmem := (h.filed p z hp).mpr (by simp [hz, Stage.ends])
        simp [hstack] at hmem
      exact (update_of_ne hne ..).trans (h.covered p z k hp hz)
    waiting p z hp hz := by
      have hne : z.task ≠ c := by
        rintro rfl
        have hhead := h.of_waits hp hz
        simp [hstack] at hhead
      exact (update_of_ne hne ..).trans (h.waiting p z hp hz)
    alive u hu := List.mem_cons_of_mem c (h.alive u hu) }

theorem Flow.enter (h : g.Flow) (ho : g.ops o = some x) (hw : x.stage.waits)
    {y : Operation T O} (hy : y.task = x.task) : (g.enter o y).Flow := by
  have hhead := h.of_waits ho hw
  have hnone := h.waiting o x ho hw
  have hin : x.stage ≠ .inside := fun hs => by simp [hs, Stage.waits] at hw
  have hend : x.stage.ends = false := by cases hs : x.stage <;> simp_all [Stage.waits, Stage.ends]
  have hget : ∀ {p z}, (g.enter o y).ops p = some z →
      p = o ∧ z = { y with stage := .inside, entered := true } ∨ p ≠ o ∧ g.ops p = some z :=
    fun hp => put_cases hp
  have hput : ∀ {p z}, p ≠ o → g.ops p = some z → (g.enter o y).ops p = some z := by
    intro p z he hp
    rw [World.enter, get_put, if_neg he]
    exact hp
  have hself : (g.enter o y).ops o = some { y with stage := .inside, entered := true } := by
    rw [World.enter, get_put, if_pos rfl]
  have hheld : ∀ u, (g.enter o y).held u = if u = x.task then some o else g.held u := by
    intro u
    rw [← hy]
    exact update_apply ..
  refine
    { flags := fun u hu k hk => ?_, inside := fun p z hp hs => ?_, covered := fun p z k hp hs => ?_,
      waiting := fun p z hp hs => ?_, filed := fun p z hp => ?_, own := fun u p hp => ?_,
      nodup := h.nodup, alive := h.alive, below := fun u p hp z hz => ?_,
      order := fun u => (h.order u).imp fun {q p} hqp z hz => ?_ }
  · rw [hheld] at hk
    split at hk
    case isTrue =>
      cases hk
      exact ⟨_, hself, rfl⟩
    case isFalse =>
      obtain ⟨z, hz, hs⟩ := h.flags u hu k hk
      refine ⟨z, hput ?_ hz, hs⟩
      rintro rfl
      exact hin (Option.some.inj (ho.symm.trans hz) ▸ hs)
  · rw [hheld]
    rcases hget hp with ⟨rfl, rfl⟩ | ⟨he, hp⟩
    · rw [if_pos hy]
    · have hold := h.inside p z hp hs
      split
      case isTrue hu => simp [hu, hnone] at hold
      case isFalse => exact hold
  · rw [hheld]
    rcases hget hp with ⟨rfl, rfl⟩ | ⟨he, hp⟩
    · cases hs
    · have hold := h.covered p z k hp hs
      split
      case isTrue hu => simp [hu, hnone] at hold
      case isFalse => exact hold
  · rw [hheld]
    rcases hget hp with ⟨rfl, rfl⟩ | ⟨he, hp⟩
    · cases hs
    · split
      case isTrue hu =>
        have hz := h.of_waits hp hs
        rw [hu, hhead] at hz
        exact absurd (Option.some.inj hz).symm he
      case isFalse => exact h.waiting p z hp hs
  · rcases hget hp with ⟨rfl, rfl⟩ | ⟨he, hp⟩
    · have hf := h.filed p x ho
      rw [hend, ← hy] at hf
      exact hf
    · exact h.filed p z hp
  · obtain ⟨z, hz, hzt⟩ := h.own u p hp
    by_cases he : p = o
    · subst he
      obtain rfl : x = z := Option.some.inj (ho.symm.trans hz)
      exact ⟨_, hself, hy.trans hzt⟩
    · exact ⟨z, hput he hz, hzt⟩
  · rcases hget hz with ⟨rfl, rfl⟩ | ⟨he, hz⟩
    · rfl
    · exact h.below u p hp z hz
  · rcases hget hz with ⟨rfl, rfl⟩ | ⟨he, hz⟩
    · simp
    · exact hqp z hz

variable {r : Outcome}

/-- The holder leaves its body, and takes the flag of its task with it. -/
theorem Flow.reset (h : g.Flow) (ho : g.ops o = some x) (hs : x.stage = .inside)
    (hhead : (g.stack x.task).head? = some o)
    (hclean : ∀ t ∈ g.tasks, g.held t = some o → t = x.task) (htask : x'.task = x.task)
    (hx' : x'.stage = .cleanup r) : ((g.put o x').reset x.task).Flow := by
  have hheld : ∀ u, ((g.put o x').reset x.task).held u = if u = x.task then none else g.held u :=
    fun u => update_apply ..
  have hops : ∀ p, ((g.put o x').reset x.task).ops p = if p = o then some x' else g.ops p :=
    fun p => get_put p
  have hget : ∀ {p z}, ((g.put o x').reset x.task).ops p = some z →
      p = o ∧ z = x' ∨ p ≠ o ∧ g.ops p = some z :=
    fun hp => put_cases hp
  have hown := h.inside o x ho hs
  obtain ⟨rest, hst⟩ : ∃ rest, g.stack x.task = o :: rest := List.head?_eq_some_iff.mp hhead
  refine
    { flags := fun u hu k hk => ?_, inside := fun p z hp hz => ?_, covered := fun p z k hp hz => ?_,
      waiting := fun p z hp hz => ?_, filed := fun p z hp => ?_, own := fun u p hp => ?_,
      nodup := h.nodup, alive := h.alive, below := fun u p hp z hz => ?_,
      order := fun u => (h.order u).imp fun {q p} hqp z hz => ?_ }
  · rw [hheld] at hk
    obtain ⟨hne, hk⟩ := Option.ite_none_left_eq_some.mp hk
    obtain ⟨z, hz, hzs⟩ := h.flags u hu k hk
    refine ⟨z, ?_, hzs⟩
    rw [hops, if_neg, hz]
    rintro rfl
    exact hne (hclean u hu hk)
  · rcases hget hp with ⟨rfl, rfl⟩ | ⟨he, hp⟩
    · simp [hx'] at hz
    · have hold := h.inside p z hp hz
      rw [hheld, if_neg, hold]
      intro hu
      rw [hu, hown] at hold
      exact he (Option.some.inj hold).symm
  · rcases hget hp with ⟨rfl, rfl⟩ | ⟨he, hp⟩
    · simp [hx'] at hz
    · have hold := h.covered p z k hp hz
      rw [hheld, if_neg, hold]
      intro hu
      -- the operation would be under the slot of the innermost one
      rw [hu, hown] at hold
      cases hold
      have hmem := (h.filed p z hp).mpr (by simp [hz, Stage.ends])
      have horder := h.order x.task
      rw [hu, hst] at hmem
      rw [hst] at horder
      have hrest := (List.mem_cons.mp hmem).resolve_left he
      exact (List.pairwise_cons.mp horder).1 p hrest z hp hz
  · rw [hheld]
    rcases hget hp with ⟨rfl, rfl⟩ | ⟨he, hp⟩
    · simp [hx', Stage.waits] at hz
    · split
      case isTrue => rfl
      case isFalse => exact h.waiting p z hp hz
  · rcases hget hp with ⟨rfl, rfl⟩ | ⟨he, hp⟩
    · have hf := h.filed p x ho
      rw [hs, ← htask] at hf
      rw [hx']
      exact hf
    · exact h.filed p z hp
  · obtain ⟨z, hz, hzt⟩ := h.own u p hp
    rw [hops]
    split
    case isTrue he =>
      obtain rfl : x = z := Option.some.inj (ho.symm.trans (he ▸ hz))
      exact ⟨x', rfl, htask.trans hzt⟩
    case isFalse => exact ⟨z, hz, hzt⟩
  · rcases hget hz with ⟨rfl, rfl⟩ | ⟨he, hz⟩
    · exfalso
      obtain ⟨y, hy, rfl⟩ := h.own u p (List.mem_of_mem_tail hp)
      obtain rfl : x = y := Option.some.inj (ho.symm.trans hy)
      have hnd := h.nodup x.task
      change p ∈ (g.stack x.task).tail at hp
      rw [hst] at hp hnd
      exact (List.nodup_cons.mp hnd).1 hp
    · exact h.below u p hp z hz
  · rcases hget hz with ⟨rfl, rfl⟩ | ⟨he, hz⟩
    · simp [hx']
    · exact hqp z hz

/-- The task is through with its innermost operation. -/
theorem Flow.finish (h : g.Flow) (x' : Operation T O) (ho : g.ops o = some x)
    (hs : x.stage ≠ .inside) (hhead : (g.stack x.task).head? = some o) (htask : x'.task = x.task)
    (hx' : x'.stage = .finished r) : ((g.put o x').pop x.task).Flow := by
  have hstack : ∀ u, ((g.put o x').pop x.task).stack u =
      if u = x.task then (g.stack x.task).tail else g.stack u := fun u => update_apply ..
  have hsub : ∀ {u p}, p ∈ ((g.put o x').pop x.task).stack u → p ∈ g.stack u := by
    intro u p hp
    rw [hstack] at hp
    split at hp
    case isTrue hu => exact hu ▸ List.mem_of_mem_tail hp
    case isFalse => exact hp
  have hget : ∀ {p z}, ((g.put o x').pop x.task).ops p = some z →
      p = o ∧ z = x' ∨ p ≠ o ∧ g.ops p = some z :=
    fun hp => put_cases hp
  have hput : ∀ {p z}, p ≠ o → g.ops p = some z → ((g.put o x').pop x.task).ops p = some z := by
    intro p z he hp
    exact (get_put p).trans (by rw [if_neg he, hp])
  obtain ⟨rest, hst⟩ : ∃ rest, g.stack x.task = o :: rest := List.head?_eq_some_iff.mp hhead
  refine
    { flags := fun u hu k hk => ?_, inside := fun p z hp hz => ?_, covered := fun p z k hp hz => ?_,
      waiting := fun p z hp hz => ?_, filed := fun p z hp => ?_, own := fun u p hp => ?_,
      nodup := fun u => ?_, alive := fun u hu => ?_, below := fun u p hp z hz => ?_,
      order := fun u => ?_ }
  · obtain ⟨z, hz, hzs⟩ := h.flags u hu k hk
    refine ⟨z, hput ?_ hz, hzs⟩
    rintro rfl
    exact hs (Option.some.inj (ho.symm.trans hz) ▸ hzs)
  · rcases hget hp with ⟨rfl, rfl⟩ | ⟨he, hp⟩
    · simp [hx'] at hz
    · exact h.inside p z hp hz
  · rcases hget hp with ⟨rfl, rfl⟩ | ⟨he, hp⟩
    · simp [hx'] at hz
    · exact h.covered p z k hp hz
  · rcases hget hp with ⟨rfl, rfl⟩ | ⟨he, hp⟩
    · simp [hx', Stage.waits] at hz
    · exact h.waiting p z hp hz
  · rw [hstack]
    rcases hget hp with ⟨rfl, rfl⟩ | ⟨he, hp⟩
    · have hnd := h.nodup x.task
      rw [hst] at hnd
      simpa [htask, hst, hx', Stage.ends] using (List.nodup_cons.mp hnd).1
    · have hf := h.filed p z hp
      split
      case isTrue hu =>
        rw [hu, hst] at hf
        rw [hst, List.tail_cons, ← hf, List.mem_cons]
        exact ⟨.inr, fun hm => hm.resolve_left he⟩
      case isFalse => exact hf
  · obtain ⟨z, hz, hzt⟩ := h.own u p (hsub hp)
    by_cases he : p = o
    · subst he
      obtain rfl : x = z := Option.some.inj (ho.symm.trans hz)
      exact ⟨x', (get_put p).trans (if_pos rfl), htask.trans hzt⟩
    · exact ⟨z, hput he hz, hzt⟩
  · rw [hstack]
    split
    case isTrue => exact (h.nodup x.task).tail
    case isFalse => exact h.nodup u
  · refine h.alive u fun hnil => hu ?_
    rw [hstack, hnil]
    split
    case isTrue he => rw [← he, hnil, List.tail_nil]
    case isFalse => rfl
  · rcases hget hz with ⟨rfl, rfl⟩ | ⟨he, hz⟩
    · exfalso
      have hmem := hsub (List.mem_of_mem_tail hp)
      obtain ⟨y, hy, rfl⟩ := h.own u p hmem
      obtain rfl : x = y := Option.some.inj (ho.symm.trans hy)
      have hnd := h.nodup x.task
      rw [hst] at hnd
      rw [hstack, if_pos rfl, hst] at hp
      exact (List.nodup_cons.mp hnd).1 (List.mem_of_mem_tail hp)
    · refine h.below u p ?_ z hz
      rw [hstack] at hp
      split at hp
      case isTrue hu => exact hu ▸ List.mem_of_mem_tail hp
      case isFalse => exact hp
  · have hall : ∀ {l : List O}, l.Pairwise (fun q p => ∀ z, g.ops p = some z → z.stage ≠ .covered q) →
        l.Pairwise fun q p => ∀ z, ((g.put o x').pop x.task).ops p = some z →
          z.stage ≠ .covered q := by
      intro l hl
      refine hl.imp fun {q p} hqp z hz => ?_
      rcases hget hz with ⟨rfl, rfl⟩ | ⟨he, hz⟩
      · simp [hx']
      · exact hqp z hz
    rw [hstack]
    split
    case isTrue => exact hall ((h.order x.task).sublist (List.tail_sublist _))
    case isFalse => exact hall (h.order u)

/-- A task in its own code, or in a body, uses the slot. -/
theorem Flow.begin (h : g.Flow) (hrun : g.Running t) (hfresh : g.ops o = none)
    (htask : x.task = t) (hend : x.stage.ends = false) (hin : x.stage ≠ .inside)
    (hcov : ∀ k, x.stage = .covered k → g.held t = some k)
    (hwait : x.stage.waits → g.held t = none) :
    ({ g with stack := update g.stack t (o :: g.stack t) }.put o x).Flow := by
  set g' := { g with stack := update g.stack t (o :: g.stack t) }.put o x with hg'
  have hstack : ∀ u, g'.stack u = if u = t then o :: g.stack t else g.stack u :=
    fun u => update_apply ..
  have hget : ∀ {p z}, g'.ops p = some z → p = o ∧ z = x ∨ p ≠ o ∧ g.ops p = some z :=
    fun hp => put_cases hp
  have hput : ∀ {p z}, g.ops p = some z → g'.ops p = some z := by
    intro p z hp
    rw [hg', get_put, if_neg]
    · exact hp
    · rintro rfl
      simp [hfresh] at hp
  have hnot : ∀ u, o ∉ g.stack u := fun u hu => by
    obtain ⟨z, hz, -⟩ := h.own u o hu
    simp [hfresh] at hz
  refine
    { flags := fun u hu k hk => ?_, inside := fun p z hp hz => ?_, covered := fun p z k hp hz => ?_,
      waiting := fun p z hp hz => ?_, filed := fun p z hp => ?_, own := fun u p hp => ?_,
      nodup := fun u => ?_, alive := fun u hu => ?_, below := fun u p hp z hz => ?_,
      order := fun u => ?_ }
  · obtain ⟨z, hz, hzs⟩ := h.flags u hu k hk
    exact ⟨z, hput hz, hzs⟩
  · rcases hget hp with ⟨rfl, rfl⟩ | ⟨he, hp⟩
    · exact absurd hz hin
    · exact h.inside p z hp hz
  · rcases hget hp with ⟨rfl, rfl⟩ | ⟨he, hp⟩
    · exact htask ▸ hcov k hz
    · exact h.covered p z k hp hz
  · rcases hget hp with ⟨rfl, rfl⟩ | ⟨he, hp⟩
    · exact htask ▸ hwait hz
    · exact h.waiting p z hp hz
  · rw [hstack]
    rcases hget hp with ⟨rfl, rfl⟩ | ⟨he, hp⟩
    · simp [htask, hend]
    · have hf := h.filed p z hp
      split
      case isTrue hu =>
        rw [← hf, hu, List.mem_cons]
        exact ⟨fun hm => hm.resolve_left he, .inr⟩
      case isFalse => exact hf
  · rw [hstack] at hp
    split at hp
    case isTrue hu =>
      rcases List.mem_cons.mp hp with rfl | hp
      · exact ⟨x, by rw [hg', get_put, if_pos rfl], htask.trans hu.symm⟩
      · obtain ⟨z, hz, hzt⟩ := h.own t p hp
        exact ⟨z, hput hz, hzt.trans hu.symm⟩
    case isFalse =>
      obtain ⟨z, hz, hzt⟩ := h.own u p hp
      exact ⟨z, hput hz, hzt⟩
  · rw [hstack]
    split
    case isTrue => exact List.nodup_cons.mpr ⟨hnot t, h.nodup t⟩
    case isFalse => exact h.nodup u
  · rw [hstack] at hu
    split at hu
    case isTrue he => exact he ▸ hrun.1
    case isFalse => exact h.alive u hu
  · rw [hstack] at hp
    have hold : g.ops p = some z := by
      rcases hget hz with ⟨rfl, rfl⟩ | ⟨-, hz⟩
      · exfalso
        split at hp
        case isTrue => exact hnot t hp
        case isFalse => exact hnot u (List.mem_of_mem_tail hp)
      · exact hz
    split at hp
    case isTrue =>
      rw [List.tail_cons] at hp
      cases hst : g.stack t with
      | nil => simp [hst] at hp
      | cons q rest =>
        rw [hst] at hp
        rcases List.mem_cons.mp hp with rfl | hrest
        · exact hrun.2 p (by simp [hst]) z hold
        · exact h.below t p (by simpa [hst] using hrest) z hold
    case isFalse => exact h.below u p hp z hold
  · have hall : (g.stack u).Pairwise fun q p => ∀ z, g'.ops p = some z → z.stage ≠ .covered q := by
      refine (h.order u).imp_of_mem fun {q p} _ hmem hqp z hz => ?_
      rcases hget hz with ⟨rfl, rfl⟩ | ⟨he, hz⟩
      · exact absurd hmem (hnot u)
      · exact hqp z hz
    rw [hstack]
    split
    case isTrue hu =>
      subst hu
      refine List.pairwise_cons.mpr ⟨fun p hp z hz hs => ?_, hall⟩
      rcases hget hz with ⟨rfl, rfl⟩ | ⟨-, hold⟩
      · exact hnot u hp
      · obtain ⟨y, hy, rfl⟩ := h.own u p hp
        obtain rfl : z = y := Option.some.inj (hold.symm.trans hy)
        -- its flag is older than the operation
        obtain ⟨w, hw, -⟩ := h.flags z.task hrun.1 o (h.covered p z o hold hs)
        simp [hfresh] at hw
    case isFalse => exact hall

/-! ## The steps -/

omit [DecidableEq T] in
theorem sound_put (h : ∀ p y, g.ops p = some y → y.Sound)
    (hops : g'.ops = (g.put o x').ops) (hx' : x'.Sound) : ∀ p y, g'.ops p = some y → y.Sound := by
  intro p y hp
  rw [hops, get_put] at hp
  split at hp
  case isTrue =>
    cases hp
    exact hx'
  case isFalse => exact h p y hp

theorem good_spawn (h : g.Good) {p : Option T} {c : T} (hstep : step g (.spawn p c) = some g') :
    g'.Good := by
  obtain ⟨hc, hstep⟩ := Option.ite_none_left_eq_some.mp hstep
  obtain ⟨-, hstack⟩ := not_or.mp hc
  cases p with
  | none =>
    cases hstep
    exact ⟨h.locking.same rfl rfl, h.flow.spawn (not_not.mp hstack) (by simp), h.sound⟩
  | some t =>
    obtain ⟨hrun, rfl⟩ := guard_some hstep
    exact ⟨h.locking.same rfl rfl, h.flow.spawn (not_not.mp hstack) (h.flow.flags t hrun.1),
      h.sound⟩

theorem good_exit (h : g.Good) (hstep : step g (.exit t) = some g') : g'.Good := by
  obtain ⟨hc, rfl⟩ := guard_some hstep
  exact ⟨h.locking.same rfl rfl, h.flow.exit hc.2, h.sound⟩

theorem good_begin (h : g.Good) {capped cancellable : Bool}
    (hstep : step g (.begin t o capped cancellable) = some g') : g'.Good := by
  simp only [step] at hstep
  by_cases hc : g.Running t ∧ g.ops o = none
  case neg => simp [hc] at hstep
  case pos =>
    rw [if_pos hc] at hstep
    obtain ⟨hrun, hfresh⟩ := hc
    cases hstep
    have hcases := start_cases g t capped
    revert hcases
    generalize g.start t capped = s
    intro hcases
    refine ⟨h.locking.keep (o := o) rfl rfl ?_, h.flow.begin hrun hfresh rfl ?_ ?_ ?_ ?_,
      sound_put h.sound rfl ?_⟩
    · simp [Operation.Holds, hfresh]
    · rcases hcases with hs | ⟨k, hs, -⟩ | ⟨hs, -⟩ <;> rw [hs] <;> rfl
    · rcases hcases with hs | ⟨k, hs, -⟩ | ⟨hs, -⟩ <;> simp [hs]
    · intro k hk
      rcases hcases with hs | ⟨k', hs, hheld⟩ | ⟨hs, -⟩
      · simp [hs] at hk
      · rw [hheld, ← Stage.covered.inj (hs.symm.trans hk)]
      · simp [hs] at hk
    · intro hw
      rcases hcases with hs | ⟨k, hs, -⟩ | ⟨-, hheld⟩
      · simp [hs, Stage.waits] at hw
      · simp [hs, Stage.waits] at hw
      · exact hheld
    · have hsettling : s ≠ .settling := by
        rcases hcases with hs | ⟨k, hs, -⟩ | ⟨hs, -⟩ <;> simp [hs]
      have hinside : s ≠ .inside := by
        rcases hcases with hs | ⟨k, hs, -⟩ | ⟨hs, -⟩ <;> simp [hs]
      exact ⟨by simp, fun hs => absurd hs hsettling, fun hs => absurd hs hinside, fun _ _ => rfl,
        fun _ _ => rfl, fun _ => rfl, fun hc => nomatch hc⟩

theorem good_acquire (h : g.Good) (hstep : step g (.acquire o) = some g') : g'.Good := by
  simp only [step] at hstep
  split at hstep
  case h_2 => cases hstep
  case h_1 x ho =>
    obtain ⟨hc, hstep⟩ := Option.ite_none_right_eq_some.mp hstep
    obtain ⟨hs, -, hfree⟩ := hc
    have hw : x.stage.waits := by rw [hs]; rfl
    have hx := h.sound o x ho
    have hrel : x.releases = 0 := by simp [hx.releases, hs, Stage.ends]
    cases hstep
    by_cases hcan : x.cancellable
    · rw [if_pos hcan]
      refine ⟨h.locking.acquire rfl rfl hfree ⟨rfl, hrel⟩,
        (h.flow.lock true).keep ho rfl Iff.rfl (fun _ => id) id rfl id,
        sound_put h.sound rfl ⟨?_, ?_, ?_, ?_, ?_, hx.unentered, hx.caught⟩⟩
      · simp [hrel, hs, Stage.ends]
      · simp [hs]
      · simp [hs]
      · simp [hs, Stage.body]
      · simp [hcan]
    · rw [if_neg hcan]
      refine ⟨h.locking.acquire rfl rfl hfree ⟨rfl, hrel⟩, (h.flow.lock true).enter ho hw rfl,
        sound_put h.sound rfl ⟨?_, ?_, ?_, ?_, ?_, ?_, fun hc => ?_⟩⟩
      · simp [hrel, Stage.ends]
      · simp
      · simp
      · simp
      · simp
      · simp [Stage.waits]
      · exact absurd (hx.caught hc).2.2.1 hcan

omit [DecidableEq T] in
/-- A use that waits goes to its `finally`. -/
theorem good_drain (h : g.Good) (ho : g.ops o = some x) (hw : x.stage.waits) {b : Bool}
    (hcaught : x.caught → x.event ∧ x.cancellable ∧ (r = .canceled ∨ b)) :
    (g.put o { x with stage := .cleanup r, thrown := b }).Good := by
  have hx := h.sound o x ho
  have hend : x.stage.ends = false := by cases hs : x.stage <;> simp_all [Stage.waits, Stage.ends]
  have hbody : x.stage.body = false := by cases hs : x.stage <;> simp_all [Stage.waits, Stage.body]
  have hrel : x.releases = 0 := by simp [hx.releases, hend]
  refine ⟨h.locking.keep rfl rfl (holds_iff ho Iff.rfl), h.flow.keep ho rfl ?_ ?_ ?_ ?_ ?_,
    sound_put h.sound rfl ⟨?_, ?_, ?_, ?_, ?_, ?_, fun hc => ?_⟩⟩
  · refine ⟨fun hs => by simp at hs, fun hs => ?_⟩
    simp [hs, Stage.body] at hbody
  · simp
  · simp [Stage.waits]
  · simp [hend]
    rfl
  · simp [hbody]
  · simp [hrel, Stage.ends]
  · simp
  · simp
  · simp [Stage.body]
  · simp
  · simp [Stage.waits]
  · obtain ⟨hev, hcan, hr⟩ := hcaught hc
    refine ⟨hx.unentered hw, hev, hcan, rfl, fun q hq => ?_⟩
    obtain rfl : r = q := by simpa using hq
    exact hr

theorem good_wake (h : g.Good) (hstep : step g (.wake o) = some g') : g'.Good := by
  simp only [step] at hstep
  split at hstep
  case h_2 => cases hstep
  case h_1 x htop =>
    obtain ⟨hc, hstep⟩ := Option.ite_none_right_eq_some.mp hstep
    obtain ⟨hs, hcan, hgot⟩ := hc
    obtain ⟨ho, -⟩ := top_cases htop
    have hx := h.sound o x ho
    have hrel : x.releases = 0 := by simp [hx.releases, hs, Stage.ends]
    have hw : x.stage.waits := by rw [hs]; rfl
    cases hstep
    by_cases hacq : x.acquired
    · rw [if_pos hacq]
      refine ⟨h.locking.keep rfl rfl (holds_iff ho Iff.rfl),
        h.flow.keep ho rfl ?_ ?_ ?_ ?_ ?_,
        sound_put h.sound rfl ⟨?_, ?_, ?_, ?_, ?_, ?_, fun hc => ?_⟩⟩
      · simp [hs]
      · simp
      · simp [hw]
      · simp [hs, Stage.ends]
      · simp [hs, Stage.body]
      · simp [hrel, Stage.ends]
      · simp [hacq, hcan]
      · simp
      · simp [Stage.body]
      · simp
      · exact fun _ => hx.unentered hw
      · obtain ⟨hent, hev, -, -, -⟩ := hx.caught hc
        exact ⟨hent, hev, hcan, rfl, fun r hr => by simp at hr⟩
    · have hev : x.event := by simpa [hacq] using hgot
      rw [if_neg hacq]
      exact good_drain h ho hw fun _ => ⟨hev, hcan, .inl rfl⟩

theorem good_settle (h : g.Good) (hstep : step g (.settle o) = some g') : g'.Good := by
  simp only [step] at hstep
  split at hstep
  case h_2 => cases hstep
  case h_1 x htop =>
    obtain ⟨hs, hstep⟩ := Option.ite_none_right_eq_some.mp hstep
    obtain ⟨ho, -⟩ := top_cases htop
    have hx := h.sound o x ho
    have hrel : x.releases = 0 := by simp [hx.releases, hs, Stage.ends]
    have hw : x.stage.waits := by rw [hs]; rfl
    obtain ⟨hacq, hcan⟩ := hx.settling hs
    cases hstep
    by_cases hev : x.event
    · rw [if_pos hev]
      exact good_drain h ho hw fun _ => ⟨hev, hcan, .inl rfl⟩
    · rw [if_neg hev]
      refine ⟨h.locking.keep rfl rfl (holds_iff ho Iff.rfl), h.flow.enter ho hw rfl,
        sound_put h.sound rfl ⟨?_, ?_, ?_, ?_, ?_, ?_, fun hc => ?_⟩⟩
      · simp [hrel, Stage.ends]
      · simp
      · simp [hacq]
      · simp
      · simp
      · simp [Stage.waits]
      · exact absurd (hx.caught hc).2.1 hev

theorem good_setEvent (h : g.Good) (hstep : step g (.setEvent o) = some g') : g'.Good := by
  simp only [step] at hstep
  split at hstep
  case h_2 => cases hstep
  case h_1 x ho =>
    have hx := h.sound o x ho
    cases hstep
    refine ⟨h.locking.keep rfl rfl (holds_iff ho Iff.rfl),
      h.flow.keep ho rfl Iff.rfl (fun _ => id) id rfl id,
      sound_put h.sound rfl { hx with caught := fun hc => ?_ }⟩
    rcases (Bool.or_eq_true ..).mp hc with hc | hc
    · obtain ⟨hent, -, hcan, hbody, hr⟩ := hx.caught hc
      exact ⟨hent, rfl, hcan, hbody, hr⟩
    · obtain ⟨hcan, hw⟩ := (Bool.and_eq_true ..).mp hc
      refine ⟨hx.unentered hw, rfl, hcan, ?_, fun r hr => ?_⟩
      · change x.stage.body = false
        cases hs : x.stage <;> simp_all [Stage.waits, Stage.body]
      · exfalso
        change x.stage = .cleanup r ∨ x.stage = .finished r at hr
        rcases hr with hr | hr <;> simp [hr, Stage.waits] at hw

/-- The task is through with an operation that did not get the lock. -/
theorem good_through (h : g.Good) (ho : g.ops o = some x) (hhead : (g.stack x.task).head? = some o)
    (hacq : x.acquired = false) {b : Bool} (hcaught : x.caught = true → r = .canceled ∨ b = true) :
    ((g.put o { x with stage := .finished r, thrown := b }).pop x.task).Good := by
  have hx := h.sound o x ho
  have hrel : x.releases = 0 := by simp [hx.releases, hacq]
  have hin : x.stage ≠ .inside := fun hs => by simp [hx.inside hs] at hacq
  refine ⟨h.locking.keep rfl rfl (holds_iff ho Iff.rfl), h.flow.finish _ ho hin hhead rfl rfl,
    sound_put h.sound rfl ⟨?_, ?_, ?_, ?_, ?_, ?_, fun hc => ?_⟩⟩
  · simp [hrel, hacq]
  · simp
  · simp
  · simp [Stage.body]
  · simp
  · simp [Stage.waits]
  · obtain ⟨hent, hev, hcan, -, -⟩ := hx.caught hc
    refine ⟨hent, hev, hcan, rfl, fun q hq => ?_⟩
    obtain rfl : r = q := by simpa using hq
    exact hcaught hc

theorem good_leave (h : g.Good) (hclean : Clean g (.leave o))
    (hstep : step g (.leave o) = some g') : g'.Good := by
  simp only [step] at hstep
  split at hstep
  case h_2 => cases hstep
  case h_1 x htop =>
    obtain ⟨ho, hhead⟩ := top_cases htop
    have hx := h.sound o x ho
    have huncaught : x.stage.body → x.caught ≠ true := fun hbody hc => by
      simp [(hx.caught hc).2.2.2.1] at hbody
    split at hstep
    case h_1 hs | h_2 k hs =>
      have hbody : x.stage.body := by rw [hs]; rfl
      cases hstep
      exact good_through h ho hhead (hx.bare hbody (by simp [hs]))
        fun hc => absurd hc (huncaught hbody)
    case h_4 => cases hstep
    case h_3 hs =>
      have hrel : x.releases = 0 := by simp [hx.releases, hs, Stage.ends]
      have hacq := hx.inside hs
      have hbody : x.stage.body := by rw [hs]; rfl
      have hflow : ((g.put o { x with stage := .cleanup .done }).reset x.task).Flow :=
        h.flow.reset ho hs hhead (hclean x ho hs) rfl rfl
      split at hstep
      case isTrue hcan =>
        cases hstep
        refine ⟨h.locking.keep rfl rfl (holds_iff ho Iff.rfl), hflow,
          sound_put h.sound rfl ⟨?_, ?_, ?_, ?_, ?_, ?_, fun hc => absurd hc (huncaught hbody)⟩⟩
        · simp [hrel, Stage.ends]
        · simp
        · simp
        · simp [Stage.body]
        · simp
        · simp [Stage.waits]
      case isFalse hcan =>
        cases hstep
        have hget : ((g.put o { x with stage := .cleanup .done }).reset x.task).ops o =
            some { x with stage := .cleanup .done } := (get_put o).trans (if_pos rfl)
        have hfinish := hflow.finish
          { x with stage := .finished .done, releases := x.releases + 1 } hget (by simp) hhead rfl rfl
        refine ⟨h.locking.release rfl rfl ho ⟨hacq, hrel⟩ (by simp [Operation.Holds]), ?_,
          sound_put h.sound rfl ⟨?_, ?_, ?_, ?_, ?_, ?_, fun hc => absurd hc (huncaught hbody)⟩⟩
        · convert hfinish.lock false using 1
          simp [World.pop, World.put, World.reset, World.unlock]
        · simp [hrel, hacq, Stage.ends]
        · simp
        · simp
        · simp [Stage.body]
        · simp
        · simp [Stage.waits]

theorem good_close (h : g.Good) (hstep : step g (.close o) = some g') : g'.Good := by
  simp only [step] at hstep
  split at hstep
  case h_2 => cases hstep
  case h_1 x htop =>
    obtain ⟨ho, hhead⟩ := top_cases htop
    have hx := h.sound o x ho
    split at hstep
    case h_2 => cases hstep
    case h_1 r hs =>
      have hrel : x.releases = 0 := by simp [hx.releases, hs, Stage.ends]
      have hcaught : x.caught = true → x.entered = false ∧ x.event = true ∧
          x.cancellable ∧ (r = .canceled ∨ x.thrown) := fun hc => by
        obtain ⟨hent, hev, hcan, -, hr⟩ := hx.caught hc
        exact ⟨hent, hev, hcan, hr r (.inl hs)⟩
      by_cases hacq : x.acquired
      · rw [if_pos hacq] at hstep
        cases hstep
        have hfinish := h.flow.finish
          { x with stage := .finished r, releases := x.releases + 1 } ho (by simp [hs]) hhead rfl rfl
        refine ⟨h.locking.release rfl rfl ho ⟨hacq, hrel⟩ (by simp [Operation.Holds]),
          hfinish.lock false, sound_put h.sound rfl ⟨?_, ?_, ?_, ?_, ?_, ?_, fun hc => ?_⟩⟩
        · simp [hrel, hacq, Stage.ends]
        · simp
        · simp
        · simp [Stage.body]
        · simp
        · simp [Stage.waits]
        · obtain ⟨hent, hev, hcan, hr⟩ := hcaught hc
          refine ⟨hent, hev, hcan, rfl, fun q hq => ?_⟩
          obtain rfl : r = q := by simpa using hq
          exact hr
      · rw [if_neg hacq] at hstep
        cases hstep
        exact good_through h ho hhead (by simpa using hacq) fun hc => (hcaught hc).2.2.2

theorem good_throw (h : g.Good) (hclean : Clean g (.throw o))
    (hstep : step g (.throw o) = some g') : g'.Good := by
  simp only [step] at hstep
  split at hstep
  case h_2 => cases hstep
  case h_1 x htop =>
    obtain ⟨ho, hhead⟩ := top_cases htop
    have hx := h.sound o x ho
    have hwaits : x.stage.waits →
        (if x.cancellable then
          some (g.put o { x with stage := .cleanup .cancelled, thrown := true })
        else some ((g.put o { x with stage := .finished .cancelled, thrown := true }).pop x.task)) =
          some g' → g'.Good := by
      intro hw hstep
      split at hstep
      case isTrue hcan =>
        cases hstep
        exact good_drain h ho hw fun hc => ⟨(hx.caught hc).2.1, hcan, .inr rfl⟩
      case isFalse hcan =>
        cases hstep
        have hacq : x.acquired = false := by
          cases hs : x.stage <;> simp only [hs, Stage.waits, reduceCtorEq] at hw
          · exact hx.direct hs (by simpa using hcan)
          · exact absurd (hx.settling hs).2 hcan
        exact good_through h ho hhead hacq fun _ => .inr rfl
    split at hstep
    case h_1 hs | h_2 hs => exact hwaits (by rw [hs]; rfl) hstep
    case h_4 => cases hstep
    case h_3 r hs =>
      cases hstep
      have hacq : x.acquired = false := by
        by_contra hacq
        have hd := hclean x ho (by simpa using hacq)
        simp [hs, Stage.drains] at hd
      exact good_through h ho hhead hacq fun _ => .inr rfl

theorem good_step {e : Label T O} (h : g.Good) (hclean : Clean g e) (hstep : step g e = some g') :
    g'.Good := by
  cases e with
  | spawn p c => exact good_spawn h hstep
  | exit t => exact good_exit h hstep
  | begin t o capped cancellable => exact good_begin h hstep
  | acquire o => exact good_acquire h hstep
  | wake o => exact good_wake h hstep
  | settle o => exact good_settle h hstep
  | setEvent o => exact good_setEvent h hstep
  | leave o => exact good_leave h hclean hstep
  | close o => exact good_close h hstep
  | throw o => exact good_throw h hclean hstep

/-- **The slot is exclusive and is given back**, in every run without the steps that `Clean` leaves
out. -/
theorem slot_exclusive {g : World T O} (h : Reach step Clean init g) : g.Exclusive :=
  (h.invariant (P := Good) good_init fun _ _ _ hg hc hs => good_step hg hc hs).exclusive

/-- A holder's child passes through under it and ends; a job is canceled in the moment it gets the
lock, and a task is cancelled while it waits. -/
def contendedRun : List (Label ℕ ℕ) :=
  [.spawn none 0, .begin 0 0 true false, .acquire 0, .spawn (some 0) 1, .begin 1 1 true true,
    .spawn none 2, .begin 2 2 true true, .spawn none 3, .begin 3 3 true true, .throw 3, .close 3,
    .leave 1, .exit 1, .leave 0, .acquire 2, .setEvent 2, .wake 2, .settle 2, .close 2]

theorem slot_exclusive_contended :
    ∃ g : World ℕ ℕ, Reach step Clean init g ∧ (g.ops 0).any (fun x => x.releases == 1) ∧
      (g.ops 1).any (fun x => x.stage == .finished .done && !x.acquired) ∧
      (g.ops 2).any (fun x => x.stage == .finished .canceled && x.acquired) ∧
      (g.ops 3).any (fun x => x.stage == .finished .cancelled) ∧ g.Exclusive := by
  have hrun : (replay step Clean (init : World ℕ ℕ) contendedRun).any (fun g => decide (
      (g.ops 0).any (fun x => x.releases == 1) ∧
      (g.ops 1).any (fun x => x.stage == .finished .done && !x.acquired) ∧
      (g.ops 2).any (fun x => x.stage == .finished .canceled && x.acquired) ∧
      (g.ops 3).any (fun x => x.stage == .finished .cancelled))) = true := by decide +kernel
  obtain ⟨g, hr, hg⟩ := reach_any hrun
  obtain ⟨h0, h1, h2, h3⟩ := of_decide_eq_true hg
  exact ⟨g, hr, h0, h1, h2, h3, slot_exclusive hr⟩

/-- The dispatcher is started under a holder, which then leaves: its job passes through while another
holder is inside. -/
def outlivedRun : List (Label ℕ ℕ) :=
  [.spawn none 0, .begin 0 0 true false, .acquire 0, .spawn (some 0) 1, .leave 0, .spawn none 2,
    .begin 2 2 true false, .acquire 2, .begin 1 1 true true]

/-- A job's task is cancelled in the drain of the `finally`. -/
def undrainedRun : List (Label ℕ ℕ) :=
  [.spawn none 0, .begin 0 0 true true, .acquire 0, .wake 0, .settle 0, .leave 0, .throw 0, .exit 0]

/-- The child of a holder outlives it and passes through beside the next one; and a lock that nobody
holds stays locked. -/
theorem slot_outlived :
    (∃ g : World ℕ ℕ, Reach step Free init g ∧ ¬g.Exclusive ∧
      (g.ops 1).any (fun x => x.stage == .covered 0) ∧
      (g.ops 2).any (fun x => x.stage == .inside)) ∧
    ∃ g : World ℕ ℕ, Reach step Free init g ∧ ¬g.Exclusive ∧ g.locked = true ∧ g.tasks = [] := by
  constructor
  · have hrun : (replay step Free (init : World ℕ ℕ) outlivedRun).any (fun g => decide (
        (g.ops 1).any (fun x => x.stage == .covered 0) ∧
        (g.ops 2).any (fun x => x.stage == .inside) ∧
        (g.ops 0).all (fun x => x.stage != .inside))) = true := by decide +kernel
    obtain ⟨g, hr, hg⟩ := reach_any hrun
    obtain ⟨h1, h2, h0⟩ := of_decide_eq_true hg
    refine ⟨g, hr, fun hex => ?_, h1, h2⟩
    cases hx : g.ops 1 with
    | none => simp [hx] at h1
    | some x =>
      obtain ⟨y, hy, hys⟩ := hex.covered 1 x 0 hx (by simpa [hx] using h1)
      simp [hy, hys] at h0
  · have hrun : (replay step Free (init : World ℕ ℕ) undrainedRun).any (fun g => decide (
        g.locked = true ∧ g.tasks = [] ∧
        (g.ops 0).any (fun x => x.stage.ends && x.acquired && x.releases == 0))) = true := by
      decide +kernel
    obtain ⟨g, hr, hg⟩ := reach_any hrun
    obtain ⟨hl, ht, h0⟩ := of_decide_eq_true hg
    refine ⟨g, hr, fun hex => ?_, hl, ht⟩
    cases hx : g.ops 0 with
    | none => simp [hx] at h0
    | some x =>
      obtain ⟨⟨hend, hacq⟩, hrel⟩ : (x.stage.ends = true ∧ x.acquired = true) ∧ x.releases = 0 := by
        simpa [hx] using h0
      cases hs : x.stage with
      | finished r =>
        have hone := (hex.once 0 x hx).2.2 r hs hacq
        omega
      | _ => simp [hs, Stage.ends] at hend

end World

end SparkDeck.Vnas.Slot
