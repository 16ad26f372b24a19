import SparkDeck.Lib.Transition
import Mathlib.Algebra.Order.Ring.Unbundled.Rat
import Mathlib.Data.List.MinMax
import Mathlib.Data.List.Nodup
import Mathlib.Data.Prod.Lex
import Mathlib.Data.String.Basic

/-!
# Who owns the price of a model

Model of `_deployment_pricing_resolution`, `_usage_member_pricing` and
`_update_deployment_pricing_locked` (`manager.py:6527-6711`). The rates of a request are those that
`_pricing_value` lets through. What `list_containers` and `_recovered_deployment_launch_settings`
make of a deployment without launch settings is a parameter.

* `ownership_kept`: in every run of accepted updates of `Settled` deployments, the owner of an
  identity is the same in every order of the list and accepts an update, and an update leaves the
  identity, and every other one, with an owner.
* `exposed_refused`: an owner without launch settings moves to another identity when it is updated.
-/

namespace SparkDeck.Pricing

open Transition

/-- `str.strip`, `str.casefold`. -/
structure Text where
  strip : String → String
  casefold : String → String

structure Rates where
  input : Option ℚ
  cache : Option ℚ
  output : Option ℚ
  deriving DecidableEq

def Rates.blank : Rates := ⟨none, none, none⟩

structure Settings where
  model : String
  /-- `_variant_from_cmd` of `extra_args` -/
  variant : String
  rates : Rates
  deriving DecidableEq

structure Deployment where
  id : String
  /-- A number that is finite. -/
  createdAt : Option ℚ
  desiredState : String
  status : String
  model : String
  pricingModelKey : String
  /-- `launch_settings`, unless it is missing or empty. -/
  settings : Option Settings
  deriving DecidableEq

variable (py : Text)

namespace Deployment

/-- `_deployment_pricing_model_key` -/
def key (d : Deployment) : String :=
  let explicit := py.strip d.pricingModelKey
  if explicit ≠ "" then explicit
  else
    let model := if d.model ≠ "" then d.model else (d.settings.map Settings.model).getD ""
    let variant := (d.settings.map Settings.variant).getD ""
    if model = "" then "" else if variant = "" then model else s!"{model} [{variant}]"

def identity (d : Deployment) : String := py.casefold (d.key py)

/-- `_deployment_pricing_signature` -/
def rates (d : Deployment) : Rates := (d.settings.map Settings.rates).getD .blank

/-- `_deployment_pricing_owner_key` -/
def ownerKey (d : Deployment) : WithTop ℚ ×ₗ String ×ₗ String :=
  toLex (d.createdAt, toLex (py.casefold d.id, d.id))

def live (d : Deployment) : Bool :=
  let desired := if d.desiredState = "" then "running" else d.desiredState
  py.casefold desired ≠ "stopped" ∧ py.casefold d.status ∉ ["stopped", "error", "removed"]

end Deployment

/-- The only element. -/
def single {α : Type} : List α → Option α
  | [a] => some a
  | _ => none

def priced (found : List Deployment) : List Deployment := found.filter (·.rates ≠ .blank)

/-- `_deployment_pricing_resolution`, of what it has found. -/
def owner (found : List Deployment) : Option Deployment :=
  if priced found ≠ [] then
    if ∀ d ∈ priced found, ∀ e ∈ priced found, d.rates = e.rates then
      (priced found).argmin (·.ownerKey py)
    else none
  else
    (single found).or ((single (found.filter (·.live py))).or (found.argmin (·.ownerKey py)))

def found (ds : List Deployment) (modelKey : String) : List Deployment :=
  ds.filter (·.identity py = modelKey)

/-- `_deployment_pricing_resolution` -/
def resolution (ds : List Deployment) (model : String) : Option Deployment :=
  let modelKey := py.casefold (py.strip model)
  if modelKey = "" then none else owner py (found py ds modelKey)

/-- The identifier that `_usage_member_pricing` exposes. -/
def exposed (ds : List Deployment) (model : String) : Option String := do
  let d ← resolution py ds model
  if py.strip d.id = "" then none else some (py.strip d.id)

/-- The settings and the `stats_key` that are recovered. -/
abbrev Recovery := Deployment → Settings × String

/-- What an update does to the deployment before it looks for the owner. -/
def Deployment.prepared (recover : Recovery) (d : Deployment) : Deployment :=
  let d := match d.settings with
    | some _ => d
    | none =>
      { d with
        settings := some (recover d).1
        pricingModelKey := if (recover d).2 = "" then d.pricingModelKey else (recover d).2 }
  if d.pricingModelKey = "" then { d with pricingModelKey := d.key py } else d

def Deployment.price (rates : Rates) (key : String) (d : Deployment) : Deployment :=
  match d.settings with
  | none => d
  | some settings =>
    { d with
      settings := some { settings with rates := rates }
      pricingModelKey := if d.pricingModelKey = "" then key else d.pricingModelKey }

/-- `_update_deployment_pricing_locked`; `none` when it raises. -/
def update (recover : Recovery) (ds : List Deployment) (id : String) (rates : Rates) :
    Option (List Deployment) := do
  let d ← ds.find? (·.id = id)
  let d := d.prepared py recover
  let ds := ds.map fun e => if e.id = id then d else e
  let owner ← resolution py ds (d.key py)
  if owner.id = id then
    some (ds.map fun e =>
      if e.id = id ∨ d.rates ≠ .blank ∧ e.identity py = d.identity py ∧ e.rates = d.rates then
        e.price rates (d.key py)
      else e)
  else none

def step (recover : Recovery) (ds : List Deployment) : String × Rates → Option (List Deployment)
  | (id, rates) => update py recover ds id rates

/-! ## The owner -/

section Lists

variable {α β K : Type} [LinearOrder K] {l l' : List α}

theorem mem_of_single {a : α} (h : single l = some a) : a ∈ l := by
  unfold single at h
  split at h
  · cases h
    exact List.mem_singleton_self _
  · cases h

theorem single_perm (h : l.Perm l') : single l' = single l := by
  match l, h with
  | [], h => rw [List.nil_perm.mp h]
  | [a], h => rw [List.singleton_perm.mp h]
  | a :: b :: r, h =>
    match l', h.length_eq with
    | [], hl => cases hl
    | [c], hl => cases hl
    | _ :: _ :: _, _ => rfl

theorem single_map (g : α → β) : single (l.map g) = (single l).map g := by
  rcases l with _ | ⟨a, _ | ⟨b, r⟩⟩ <;> rfl

theorem argmin_perm {f : α → K} (h : l.Perm l') (hf : ∀ a ∈ l, ∀ b ∈ l, f a = f b → a = b) :
    l'.argmin f = l.argmin f := by
  cases ha : l.argmin f with
  | none =>
    rw [List.argmin_eq_none] at ha ⊢
    exact List.nil_perm.mp (ha ▸ h)
  | some a =>
    have hmem := List.argmin_mem ha
    cases hb : l'.argmin f with
    | none =>
      rw [List.argmin_eq_none.mp hb] at h
      exact absurd (h.subset hmem) List.not_mem_nil
    | some b =>
      have hb' := h.symm.subset (List.argmin_mem hb)
      have hle := List.le_of_mem_argmin (h.subset hmem) hb
      have hle' := List.le_of_mem_argmin hb' ha
      exact congrArg some (hf b hb' a hmem (le_antisymm hle hle'))

theorem argmin_map {f : α → K} {f' : β → K} {g : α → β} (hg : ∀ a ∈ l, f' (g a) = f a) :
    (l.map g).argmin f' = (l.argmin f).map g := by
  induction l with
  | nil => rfl
  | cons a l ih =>
    rw [List.map_cons, List.argmin_cons, List.argmin_cons,
      ih fun b hb => hg b (List.mem_cons_of_mem a hb)]
    cases h : l.argmin f with
    | none => rfl
    | some b =>
      have hb := List.mem_cons_of_mem a (List.argmin_mem h)
      simp only [Option.map_some, hg a List.mem_cons_self, hg b hb]
      split <;> rfl

end Lists

variable {py : Text} {recover : Recovery} {ds t l l' : List Deployment} {d e o : Deployment}
  {model id : String} {rates : Rates}

theorem mem_priced : d ∈ priced l ↔ d ∈ l ∧ d.rates ≠ .blank := by
  simp [priced]

theorem mem_found : d ∈ found py ds model ↔ d ∈ ds ∧ d.identity py = model := by
  simp [found]

theorem owner_perm (h : l.Perm l') (hinj : ∀ a ∈ l, ∀ b ∈ l, a.id = b.id → a = b) :
    owner py l' = owner py l := by
  have hkey : ∀ a ∈ l, ∀ b ∈ l, a.ownerKey py = b.ownerKey py → a = b := fun a ha b hb he =>
    hinj a ha b hb (congrArg (fun x => (ofLex (ofLex x).2).2) he)
  have hp : (priced l).Perm (priced l') := h.filter _
  have hnil : priced l' ≠ [] ↔ priced l ≠ [] :=
    not_congr ⟨fun he => List.perm_nil.mp (he ▸ hp), fun he => List.nil_perm.mp (he ▸ hp)⟩
  unfold owner
  rw [argmin_perm hp fun a ha b hb => hkey a (mem_priced.mp ha).1 b (mem_priced.mp hb).1,
    argmin_perm h hkey, single_perm h, single_perm (h.filter _)]
  simp only [hnil, ← hp.mem_iff]

/-- What the owner depends on. -/
structure Alike (py : Text) (d e : Deployment) : Prop where
  identity : e.identity py = d.identity py
  rates : e.rates = d.rates
  key : e.ownerKey py = d.ownerKey py
  live : e.live py = d.live py

variable {g : Deployment → Deployment}

theorem owner_map (hg : ∀ e ∈ l, Alike py e (g e)) : owner py (l.map g) = (owner py l).map g := by
  have hpriced : priced (l.map g) = (priced l).map g := by
    unfold priced
    rw [List.filter_map]
    exact congrArg _ (List.filter_congr fun e he => by simp [(hg e he).rates])
  have hlive : (l.map g).filter (·.live py) = (l.filter (·.live py)).map g := by
    rw [List.filter_map]
    exact congrArg _ (List.filter_congr fun e he => (hg e he).live)
  have hsame : (∀ d ∈ (priced l).map g, ∀ e ∈ (priced l).map g, d.rates = e.rates) ↔
      ∀ d ∈ priced l, ∀ e ∈ priced l, d.rates = e.rates := by
    simp only [List.forall_mem_map]
    refine forall₂_congr fun d hd => forall₂_congr fun e he => ?_
    rw [(hg d (mem_priced.mp hd).1).rates, (hg e (mem_priced.mp he).1).rates]
  unfold owner
  rw [hpriced, hlive, argmin_map fun e he => (hg e he).key,
    argmin_map fun e he => (hg e (mem_priced.mp he).1).key, single_map, single_map]
  simp only [hsame, ne_eq, List.map_eq_nil_iff]
  split
  · split <;> rfl
  · cases single l <;> cases single (l.filter (·.live py)) <;> rfl

/-- What is priced has the rates of the owner. -/
theorem owner_some (h : owner py l = some o) :
    o ∈ l ∧ ∀ e ∈ l, e.rates ≠ .blank → e.rates = o.rates := by
  unfold owner at h
  split at h
  · obtain ⟨hsame, h⟩ := Option.ite_none_right_eq_some.mp h
    have ho := List.argmin_mem h
    exact ⟨(mem_priced.mp ho).1, fun e he hr => hsame e (mem_priced.mpr ⟨he, hr⟩) o ho⟩
  · rename_i hnil
    refine ⟨?_, fun e he hr => absurd (mem_priced.mpr ⟨he, hr⟩) (by simp [not_not.mp hnil])⟩
    rcases Option.or_eq_some_iff.mp h with h | ⟨-, h⟩
    · exact mem_of_single h
    · rcases Option.or_eq_some_iff.mp h with h | ⟨-, h⟩
      · exact List.mem_of_mem_filter (mem_of_single h)
      · exact List.argmin_mem h

theorem owner_isSome (hd : d ∈ l)
    (hsame : ∀ e ∈ l, ∀ e' ∈ l, e.rates ≠ .blank → e'.rates ≠ .blank → e.rates = e'.rates) :
    (owner py l).isSome := by
  have hsome : ∀ {l : List Deployment}, l ≠ [] → (l.argmin (·.ownerKey py)).isSome :=
    fun h => Option.isSome_iff_ne_none.mpr fun hn => h (List.argmin_eq_none.mp hn)
  unfold owner
  split
  · rename_i hpriced
    rw [if_pos]
    · exact hsome hpriced
    · intro e he e' he'
      obtain ⟨he, hr⟩ := mem_priced.mp he
      obtain ⟨he', hr'⟩ := mem_priced.mp he'
      exact hsame e he e' he' hr hr'
  · rw [Option.isSome_or, Option.isSome_or, hsome (List.ne_nil_of_mem hd), Bool.or_true,
      Bool.or_true]

theorem found_map (hg : ∀ e ∈ ds, (g e).identity py = e.identity py) :
    found py (ds.map g) model = (found py ds model).map g := by
  unfold found
  rw [List.filter_map]
  exact congrArg _ (List.filter_congr fun e he => by simp [hg e he])

/-! ## Updates -/

/-- It has launch settings, and an identity without white space around it. -/
structure Settled (py : Text) (d : Deployment) : Prop where
  settings : d.settings.isSome
  key : py.strip (d.key py) = d.key py

/-- What an update by the owner `d` does to a deployment. -/
def priceIn (py : Text) (d : Deployment) (rates : Rates) (e : Deployment) : Deployment :=
  if e = d ∨ d.rates ≠ .blank ∧ e.identity py = d.identity py ∧ e.rates = d.rates then
    e.price rates (d.key py)
  else e

/-- The identifiers are told apart, and `_usage_member_pricing` does not change them. -/
structure Distinct (py : Text) (ds : List Deployment) : Prop where
  eq : ∀ d ∈ ds, ∀ e ∈ ds, d.id = e.id → d = e
  plain : ∀ d ∈ ds, py.strip d.id = d.id ∧ d.id ≠ ""

variable {key : String}

theorem key_filled (settings : Option Settings)
    (hmodel : settings.map Settings.model = d.settings.map Settings.model)
    (hvariant : settings.map Settings.variant = d.settings.map Settings.variant)
    (hkey : py.strip key = key) :
    Deployment.key py { d with
      settings := settings
      pricingModelKey := if d.pricingModelKey = "" then key else d.pricingModelKey } =
        if d.pricingModelKey = "" ∧ key ≠ "" then key else d.key py := by
  by_cases hp : d.pricingModelKey = ""
  · by_cases hk : key = ""
    · simp [Deployment.key, hp, hk, hmodel, hvariant]
    · simp [Deployment.key, hp, hkey, hk]
  · simp [Deployment.key, hp, hmodel, hvariant]

theorem price_identity (hkey : py.strip key = key) (hid : py.casefold key = d.identity py) :
    (d.price rates key).identity py = d.identity py := by
  unfold Deployment.price
  cases hs : d.settings with
  | none => rfl
  | some s =>
    refine (congrArg py.casefold (key_filled _ (by simp [hs]) (by simp [hs]) hkey)).trans ?_
    split
    · exact hid
    · rfl

theorem price_id : (d.price rates key).id = d.id := by
  unfold Deployment.price
  split <;> rfl

theorem price_rates (hs : d.settings.isSome) : (d.price rates key).rates = rates := by
  obtain ⟨s, hs⟩ := Option.isSome_iff_exists.mp hs
  simp [Deployment.price, Deployment.rates, hs]

theorem resolution_some (h : resolution py ds model = some o) :
    o ∈ ds ∧ o.identity py = py.casefold (py.strip model) ∧ o.identity py ≠ "" ∧
      owner py (found py ds (o.identity py)) = some o := by
  obtain ⟨hne, h⟩ := Option.ite_none_left_eq_some.mp h
  obtain ⟨ho, hid⟩ := mem_found.mp (owner_some h).1
  rw [← hid] at hne h
  exact ⟨ho, hid, hne, h⟩

theorem resolution_of_identity (hid : d.identity py = py.casefold (py.strip model))
    (hne : d.identity py ≠ "") :
    resolution py ds model = owner py (found py ds (d.identity py)) := by
  rw [hid] at hne ⊢
  exact if_neg hne

theorem resolution_map (hg : ∀ e ∈ ds, Alike py e (g e)) :
    resolution py (ds.map g) model = (resolution py ds model).map g := by
  simp only [resolution, found_map fun e he => (hg e he).identity,
    owner_map fun e he => hg e (mem_found.mp he).1]
  split <;> rfl

theorem Settled.prepared (h : Settled py d) : d.prepared py recover = { d with
    pricingModelKey := if d.pricingModelKey = "" then d.key py else d.pricingModelKey } := by
  obtain ⟨s, hs⟩ := Option.isSome_iff_exists.mp h.settings
  simp only [Deployment.prepared, hs]
  split
  · rfl
  · simp only [← hs]

theorem Settled.key_prepared (h : Settled py d) : (d.prepared py recover).key py = d.key py := by
  rw [h.prepared, key_filled _ rfl rfl h.key, ite_self]

theorem Settled.alike (h : Settled py d) : Alike py d (d.prepared py recover) := by
  refine ⟨congrArg py.casefold h.key_prepared, ?_, ?_, ?_⟩
  all_goals rw [h.prepared]; rfl

theorem Settled.price (h : Settled py d) :
    (d.prepared py recover).price rates (d.key py) = d.price rates (d.key py) := by
  obtain ⟨s, hs⟩ := Option.isSome_iff_exists.mp h.settings
  rw [h.prepared]
  simp only [Deployment.price, hs]
  by_cases hp : d.pricingModelKey = "" <;> simp [hp]

/-- The update of the owner, and of nobody else, is accepted. -/
theorem update_eq (h : Distinct py ds) (hd : d ∈ ds) (hs : Settled py d) :
    update py recover ds d.id rates =
      if resolution py ds (d.key py) = some d then some (ds.map (priceIn py d rates)) else none := by
  have hfind : ds.find? (fun e => e.id = d.id) = some d := by
    cases hf : ds.find? (fun e => e.id = d.id) with
    | none => exact absurd (decide_eq_true rfl) (List.find?_eq_none.mp hf d hd)
    | some e =>
      have he : e.id = d.id := by simpa using List.find?_some hf
      exact congrArg some (h.eq e (List.mem_of_find?_eq_some hf) d hd he)
  let g (e : Deployment) := if e.id = d.id then d.prepared py recover else e
  have hself : g d = d.prepared py recover := if_pos rfl
  have hother {e : Deployment} (he : e ∈ ds) (hne : e ≠ d) : g e = e :=
    if_neg fun hid => hne (h.eq e he d hd hid)
  have hg : ∀ e ∈ ds, Alike py e (g e) := by
    intro e he
    by_cases hed : e = d
    · rw [hed, hself]
      exact hs.alike
    · rw [hother he hed]
      exact ⟨rfl, rfl, rfl, rfl⟩
  have hid : ∀ e ∈ ds, (g e).id = d.id ↔ e = d := by
    intro e he
    by_cases hed : e = d
    · simp [hed, hself, hs.prepared]
    · rw [hother he hed]
      exact ⟨fun hi => h.eq e he d hd hi, fun hed => hed ▸ rfl⟩
  have hprice : (ds.map g).map (fun e =>
      if e.id = d.id ∨ (d.prepared py recover).rates ≠ .blank ∧
          e.identity py = (d.prepared py recover).identity py ∧
          e.rates = (d.prepared py recover).rates then
        e.price rates (d.key py)
      else e) = ds.map (priceIn py d rates) := by
    rw [List.map_map]
    refine List.map_congr_left fun e he => ?_
    simp only [Function.comp, hid e he, hs.alike.identity, hs.alike.rates, (hg e he).identity,
      (hg e he).rates, priceIn]
    by_cases hed : e = d
    · simp only [hed, true_or, if_true, hself, hs.price]
    · simp only [hother he hed]
  unfold update
  rw [hfind]
  simp only [Option.bind_eq_bind, Option.bind_some, hs.key_prepared]
  rw [resolution_map hg, hprice]
  cases hr : resolution py ds (d.key py) with
  | none => rfl
  | some o => simp only [Option.map_some, Option.bind_some, hid o (resolution_some hr).1,
      Option.some.injEq]

/-- What an accepted update has done. -/
structure Updated (py : Text) (ds : List Deployment) (d : Deployment) (rates : Rates)
    (ds' : List Deployment) : Prop where
  /-- Each deployment is where it was, as the update made it. -/
  map : ds' = ds.map (priceIn py d rates)
  group : ∀ e ∈ ds, e.identity py = d.identity py → e.rates = d.rates → d.rates ≠ .blank →
    (priceIn py d rates e).rates = rates
  others : ∀ e ∈ ds, e.identity py ≠ d.identity py → priceIn py d rates e = e
  owner : ∃ o, resolution py ds' (d.key py) = some o ∧ o.rates = rates
  resolved : ∀ model, (resolution py ds model).isSome →
    (resolution py ds' model).isSome

theorem rates_isSome (h : d.rates ≠ .blank) : d.settings.isSome := by
  cases hs : d.settings with
  | none => exact absurd (by simp [Deployment.rates, hs]) h
  | some s => rfl

theorem priceIn_identity (hs : Settled py d) : (priceIn py d rates e).identity py = e.identity py := by
  unfold priceIn
  split
  · rename_i hp
    refine price_identity hs.key ?_
    rcases hp with rfl | hp
    · rfl
    · exact hp.2.1.symm
  · rfl

theorem priceIn_rates (hs : Settled py d)
    (h : e = d ∨ d.rates ≠ .blank ∧ e.identity py = d.identity py ∧ e.rates = d.rates) :
    (priceIn py d rates e).rates = rates := by
  rw [priceIn, if_pos h]
  rcases h with rfl | ⟨hr, -, he⟩
  · exact price_rates hs.settings
  · exact price_rates (rates_isSome (he ▸ hr))

/-- Afterwards all that is priced has the new rates. -/
theorem resolution_priceIn (hs : Settled py d) (hr : resolution py ds (d.key py) = some d) :
    ∃ o, resolution py (ds.map (priceIn py d rates)) (d.key py) = some o ∧ o.rates = rates := by
  obtain ⟨hd, -, hne, howner⟩ := resolution_some hr
  have hall : ∀ e ∈ (found py ds (d.identity py)).map (priceIn py d rates), e.rates ≠ .blank →
      e.rates = rates := by
    simp only [List.forall_mem_map]
    intro e he hp
    by_cases hg : e = d ∨ d.rates ≠ .blank ∧ e.identity py = d.identity py ∧ e.rates = d.rates
    · exact priceIn_rates hs hg
    · rw [priceIn, if_neg hg] at hp
      have heq := (owner_some howner).2 e he hp
      exact absurd (Or.inr ⟨heq ▸ hp, (mem_found.mp he).2, heq⟩) hg
  have hmem : priceIn py d rates d ∈ (found py ds (d.identity py)).map (priceIn py d rates) :=
    List.mem_map_of_mem (mem_found.mpr ⟨hd, rfl⟩)
  obtain ⟨o, ho⟩ : ∃ o, owner py ((found py ds (d.identity py)).map (priceIn py d rates)) = some o :=
    Option.isSome_iff_exists.mp (owner_isSome hmem fun e he e' he' hp hp' =>
      (hall e he hp).trans (hall e' he' hp').symm)
  refine ⟨o, ?_, ?_⟩
  · rw [resolution_of_identity (d := d) (by rw [hs.key]; rfl) hne,
      found_map fun e _ => priceIn_identity hs, ho]
  · obtain ⟨ho, hsame⟩ := owner_some ho
    by_cases hp : o.rates = .blank
    · by_contra hno
      have hd : (priceIn py d rates d).rates = rates := priceIn_rates hs (Or.inl rfl)
      exact hno ((hsame _ hmem (by rw [hd]; exact fun h => hno (hp.trans h.symm))).symm.trans hd)
    · exact hall o ho hp

theorem priceIn_others (hne : e.identity py ≠ d.identity py) : priceIn py d rates e = e :=
  if_neg (by rintro (rfl | h); exacts [hne rfl, hne h.2.1])

theorem resolution_others (hs : Settled py d) (hne : py.casefold (py.strip model) ≠ d.identity py) :
    resolution py (ds.map (priceIn py d rates)) model = resolution py ds model := by
  have hsame : (found py ds (py.casefold (py.strip model))).map (priceIn py d rates) =
      found py ds (py.casefold (py.strip model)) :=
    (List.map_congr_left fun e he => priceIn_others ((mem_found.mp he).2 ▸ hne)).trans
      (List.map_id _)
  simp only [resolution, found_map fun e _ => priceIn_identity hs, hsame]

theorem Updated.of_owner (hs : Settled py d) (hr : resolution py ds (d.key py) = some d) :
    Updated py ds d rates (ds.map (priceIn py d rates)) := by
  refine ⟨rfl, fun e _ hi hrates hp => priceIn_rates hs (Or.inr ⟨hp, hi, hrates⟩),
    fun e _ => priceIn_others, resolution_priceIn hs hr, fun model hm => ?_⟩
  by_cases hid : py.casefold (py.strip model) = d.identity py
  · obtain ⟨o, ho, -⟩ : ∃ o, resolution py (ds.map (priceIn py d rates)) (d.key py) = some o ∧
        o.rates = rates := resolution_priceIn hs hr
    obtain ⟨-, hido, hne, howner⟩ := resolution_some ho
    rw [resolution_of_identity (hido.trans ((congrArg _ hs.key).trans hid.symm)) hne, howner]
    rfl
  · rwa [resolution_others hs hid]

theorem Distinct.map (h : Distinct py ds) : Distinct py (ds.map (priceIn py d rates)) := by
  have hid : ∀ e : Deployment, (priceIn py d rates e).id = e.id := fun e => by
    unfold priceIn
    split
    · exact price_id
    · rfl
  refine ⟨?_, ?_⟩ <;> simp only [List.forall_mem_map, hid]
  · exact fun e he e' he' hi => congrArg _ (h.eq e he e' he' hi)
  · exact h.plain

/-- What is updated is settled. -/
def Plain (py : Text) (ds : List Deployment) (x : String × Rates) : Prop :=
  ∀ d ∈ ds, d.id = x.1 → Settled py d

/-- Every identity has at most one owner, who can change its price. -/
structure Owned (py : Text) (recover : Recovery) (ds : List Deployment) : Prop where
  order : ∀ l, ds.Perm l → ∀ model, resolution py l model = resolution py ds model
  accepted : ∀ model id rates, exposed py ds model = some id → Plain py ds (id, rates) →
    (update py recover ds id rates).isSome
  updated : ∀ x ds', Plain py ds x → step py recover ds x = some ds' →
    ∃ d ∈ ds, d.id = x.1 ∧ resolution py ds (d.key py) = some d ∧ Updated py ds d x.2 ds'

/-- The update is the owner's. -/
theorem step_some (h : Distinct py ds) {x : String × Rates} (hc : Plain py ds x)
    (hx : step py recover ds x = some t) :
    ∃ d ∈ ds, d.id = x.1 ∧ Settled py d ∧ resolution py ds (d.key py) = some d ∧
      t = ds.map (priceIn py d x.2) := by
  obtain ⟨d, hf, -⟩ := Option.bind_eq_some_iff.mp hx
  have hd := List.mem_of_find?_eq_some hf
  have hid : d.id = x.1 := by simpa using List.find?_some hf
  have hs := hc d hd hid
  have hu := hx
  rw [step, ← hid, update_eq h hd hs] at hu
  obtain ⟨hr, rfl⟩ := guard_some hu
  exact ⟨d, hd, hid, hs, hr, rfl⟩

theorem Distinct.owned (h : Distinct py ds) : Owned py recover ds := by
  refine ⟨fun l hl model => ?_, fun model id rates hx hc => ?_, fun x t hc hx => ?_⟩
  · have hf : ∀ model, owner py (found py l model) = owner py (found py ds model) := fun model =>
      owner_perm (hl.filter _) fun a ha b hb => h.eq a (mem_found.mp ha).1 b (mem_found.mp hb).1
    simp only [resolution, hf]
  · obtain ⟨d, hr, hx⟩ := Option.bind_eq_some_iff.mp hx
    obtain ⟨hd, hid, hne, howner⟩ := resolution_some hr
    obtain rfl : d.id = id := by simpa [(h.plain d hd).1, (h.plain d hd).2] using hx
    have hs := hc d hd rfl
    rw [update_eq h hd hs, if_pos]
    · rfl
    · rwa [resolution_of_identity (congrArg py.casefold hs.key.symm) hne]
  · obtain ⟨d, hd, hid, hs, hr, rfl⟩ := step_some h hc hx
    exact ⟨d, hd, hid, hr, .of_owner hs hr⟩

/-- **No accepted updates make an identity ambiguous.** -/
theorem ownership_kept (h₀ : Distinct py l) (h : Reach (step py recover) (Plain py) l ds) :
    Owned py recover ds ∧ ∀ model, (resolution py l model).isSome = true →
      (resolution py ds model).isSome = true := by
  have hinv := h.invariant (P := fun ds => Distinct py ds ∧ ∀ model,
      (resolution py l model).isSome = true → (resolution py ds model).isSome = true)
    ⟨h₀, fun _ hm => hm⟩ fun a x b ha hc hx => by
      obtain ⟨d, -, -, hs, hr, rfl⟩ := step_some ha.1 hc hx
      exact ⟨ha.1.map, fun model hm => (Updated.of_owner hs hr).resolved model (ha.2 model hm)⟩
  exact ⟨hinv.1.owned, hinv.2⟩

/-! ## An owner without launch settings -/

/-- `"m [fp8]"` is what the container of such a deployment serves. -/
def fp8 : Settings := ⟨"m", "fp8", ⟨some 1, none, some 2⟩⟩

def unsettled : Deployment := ⟨"a", some 1, "running", "running", "m", "", none⟩

def settled : Deployment := ⟨"b", some 0, "running", "running", "m", "m [fp8]", some fp8⟩

/-- As it is on lower case without white space around it. -/
def lower : Text := ⟨fun s => s, fun s => s⟩

def recovered : Recovery := fun _ => ({ fp8 with rates := .blank }, "m [fp8]")

theorem distinct_two : Distinct lower [unsettled, settled] := by
  constructor <;> decide

theorem ownership_kept_priced : ∃ ds,
    update lower recovered [unsettled, settled] "b" .blank = some ds ∧ Owned lower recovered ds := by
  have hc : Plain lower [unsettled, settled] ("b", .blank) := by
    intro d hd hid
    obtain rfl | rfl : d = unsettled ∨ d = settled := by simpa using hd
    · exact absurd hid (by decide)
    · exact ⟨rfl, rfl⟩
  exact ⟨_, rfl, (ownership_kept distinct_two (Reach.refl.tail (e := ("b", .blank)) hc rfl)).1⟩

/-- `a` is exposed for `m`, but has become a deployment of `m [fp8]` when its update looks for the
owner. -/
theorem exposed_refused : Distinct lower [unsettled, settled] ∧
    exposed lower [unsettled, settled] "m" = some "a" ∧
    update lower recovered [unsettled, settled] "a" ⟨some 3, none, none⟩ = none :=
  ⟨distinct_two, rfl, rfl⟩

end SparkDeck.Pricing
