import Mathlib.Data.List.MinMax
import SparkDeck.Lib.Counter

/-!
# Routing slots

Model of the selectors of the gateway and of the load counters they share
(`sparkdeck/service.py:8485-8605`, `:8664-8680`, and the selection in `proxy`, `:9120-9180`).

`Lookup` is what the awaits before the selection find: the deployment a source-IP rule pins, the
deployment with the exact id or alias, the live owners of a shared id, the stored deployment, the
owners that are not observed now. From the first selector on nothing is awaited, so `select` is one
step. A slot reserved for a member or an owner is `routing_slot` with the id of the deployment; an
empty id is a slot for a policy or the balancer and none for a direct request, as in the source.

* `select_spec`: a selection counts one more request for the slot it returns, or returns none and
  counts nothing.
-/

namespace SparkDeck.Proxy

structure Deployment where
  /-- `str(deployment.get("id") or "")`. -/
  id : String
  /-- The first of `last_deployed_at` and `created_at` that is a timestamp. -/
  stamp : Option ℤ

structure Member where
  deploymentId : String
  maxConcurrency : Option ℕ

/-- An entry of `_model_routing_rotation`. -/
structure Turn where
  order : List String
  cursor : ℕ

structure Counters where
  /-- `_model_routing_policies`: the members of the policy of a request id. -/
  policies : String → Option (List Member)
  /-- `_model_routing_inflight`. -/
  inflight : Dict String ℕ
  /-- `_model_routing_rotation`. -/
  rotation : String → Option Turn

namespace Counters

variable (c : Counters)

def load (id : String) : ℕ := (c.inflight.get id).getD 0

def reserve (id : String) : Counters := { c with inflight := c.inflight.up id }

/-- `_reserve_policy_slot`. -/
def reservePolicySlot (id : String) : Bool × Counters :=
  if id = "" then (false, c) else (true, c.reserve id)

/-- `_release_routing_slot`. -/
def releaseRoutingSlot (id : String) : Counters := { c with inflight := c.inflight.down id }

/-- The member a policy sends the next request to: the first one below its cap, or the least
loaded one. -/
def chosen (members : List Member) : Option String :=
  let below := members.find? fun m => m.maxConcurrency.all (c.load m.deploymentId < ·)
  (below.or (members.argmin fun m => c.load m.deploymentId)).map Member.deploymentId

/-- `_select_routed_member`. -/
def selectRoutedMember (model : String) (candidates : List Deployment) :
    Option (Deployment × Counters) :=
  (c.policies model).bind fun members =>
    let live := members.filter fun m => candidates.any (·.id = m.deploymentId)
    (c.chosen live).bind fun id =>
      -- a later candidate overwrites an earlier one in `live_by_id`
      (candidates.reverse.find? (·.id = id)).map fun d => (d, c.reserve id)

/-- `_balanced_owner_sort_key`. -/
def sortKey (d : Deployment) : ℤ × String := (d.stamp.getD 0, d.id)

/-- `reverse=True`: the larger key first, equal keys in their order. -/
def before (a b : Deployment) : Prop :=
  (sortKey b).1 < (sortKey a).1 ∨ (sortKey b).1 = (sortKey a).1 ∧ (sortKey b).2 ≤ (sortKey a).2

instance : DecidableRel before := fun _ _ => inferInstanceAs (Decidable (_ ∨ _))

/-- The turn a request id is at, for the ranking `order`. -/
def turn (model : String) (order : List String) : Turn :=
  match c.rotation model with
  | some t => if t.order = order then t else ⟨order, 0⟩
  | none => ⟨order, 0⟩

/-- The owners with the fewest requests. -/
def tied (ordered : List Deployment) : List Deployment :=
  ordered.filter fun d => ordered.all fun e => c.load d.id ≤ c.load e.id

/-- `_select_balanced_shared_owner`; nothing for no candidates, which its callers exclude. -/
def selectBalancedSharedOwner (model : String) (candidates : List Deployment) :
    Option (Deployment × Counters) :=
  let ordered := candidates.insertionSort before
  let t := c.turn model (ordered.map Deployment.id)
  let tied := c.tied ordered
  tied[t.cursor % tied.length]?.map fun d =>
    (d, { c.reserve d.id with
      rotation := Function.update c.rotation model (some { t with cursor := t.cursor + 1 }) })

end Counters

/-- `deployment` and `routing_slot` once the request is routed, with the counters as they are
then. -/
structure Selection where
  deployment : Option Deployment
  slot : Option String
  counters : Counters

/-- A deployment that no selector reserved. -/
def Counters.direct (c : Counters) (d : Deployment) : Selection :=
  let (reserved, c') := c.reservePolicySlot d.id
  ⟨some d, if reserved then some d.id else none, c'⟩

/-- A shared id among `owners`: the policy, the only owner, or the balancer. -/
def Counters.spread (c : Counters) (model : String) (owners : List Deployment) :
    Option Selection :=
  match c.selectRoutedMember model owners with
  | some (d, c') => some ⟨some d, some d.id, c'⟩
  | none =>
    match owners with
    | [d] => some (c.direct d)
    | _ => (c.selectBalancedSharedOwner model owners).map fun (d, c') => ⟨some d, some d.id, c'⟩

structure Lookup where
  /-- The deployment of `_pin_source_route`, when there is a source route. -/
  pinned : Option Deployment
  exact : Option Deployment
  candidates : List Deployment
  /-- `stored_deployment`. -/
  stored : Option Deployment
  /-- `_transiently_unobserved_owners`. -/
  owners : List Deployment

/-- The lookup found nothing to route to. -/
def Lookup.isEmpty (l : Lookup) : Bool :=
  l.pinned.isNone && l.exact.isNone && l.candidates.isEmpty && l.stored.isNone && l.owners.isEmpty

/-- The selection in `proxy`. -/
def Counters.select (c : Counters) (model : String) (l : Lookup) : Selection :=
  match l.pinned.or l.exact with
  | some d => c.direct d
  | none =>
    match c.spread model l.candidates with
    | some sel => sel
    | none =>
      match l.stored with
      | some d => c.direct d
      | none => (c.spread model l.owners).getD ⟨none, none, c⟩

/-! ## What a selection does -/

/-- One more request counts for the slot, or there is none. -/
def Reserves (c : Counters) (sel : Selection) : Prop :=
  (sel.slot = none ∧ sel.counters.inflight = c.inflight) ∨
    ∃ id, sel.slot = some id ∧ sel.counters.inflight = c.inflight.up id

variable {c c' : Counters} {model : String} {ds : List Deployment} {d : Deployment} {l : Lookup}
  {sel : Selection}

theorem direct_spec (c : Counters) (d : Deployment) : Reserves c (c.direct d) := by
  unfold Counters.direct Counters.reservePolicySlot
  by_cases h : d.id = ""
  · rw [if_pos h]
    exact Or.inl ⟨rfl, rfl⟩
  · rw [if_neg h]
    exact Or.inr ⟨d.id, rfl, rfl⟩

/-- The slot of a policy member is counted under the id of the deployment returned. -/
theorem selectRoutedMember_spec (h : c.selectRoutedMember model ds = some (d, c')) :
    c' = c.reserve d.id := by
  obtain ⟨members, -, h⟩ := Option.bind_eq_some_iff.mp h
  obtain ⟨id, -, h⟩ := Option.bind_eq_some_iff.mp h
  obtain ⟨e, he, h⟩ := Option.map_eq_some_iff.mp h
  obtain ⟨rfl, rfl⟩ := Prod.ext_iff.mp h
  have hid : e.id = id := by simpa using List.find?_some he
  rw [hid]

theorem selectBalancedSharedOwner_spec
    (h : c.selectBalancedSharedOwner model ds = some (d, c')) :
    c'.inflight = c.inflight.up d.id := by
  obtain ⟨e, -, h⟩ := Option.map_eq_some_iff.mp h
  obtain ⟨rfl, rfl⟩ := Prod.ext_iff.mp h
  rfl

theorem spread_spec (h : c.spread model ds = some sel) : Reserves c sel := by
  unfold Counters.spread at h
  split at h
  case h_1 d c' hm =>
    cases h
    exact Or.inr ⟨d.id, rfl, by rw [selectRoutedMember_spec hm]; rfl⟩
  case h_2 =>
    split at h
    case h_1 =>
      cases h
      exact direct_spec c _
    case h_2 =>
      obtain ⟨⟨d, c'⟩, hb, rfl⟩ := Option.map_eq_some_iff.mp h
      exact Or.inr ⟨d.id, rfl, selectBalancedSharedOwner_spec hb⟩

theorem spread_nil (c : Counters) (model : String) : c.spread model [] = none := by
  have hm : c.selectRoutedMember model [] = none := by
    unfold Counters.selectRoutedMember
    cases c.policies model with
    | none => rfl
    | some members => simp [Counters.chosen]
  unfold Counters.spread
  rw [hm]
  rfl

/-- **What a selection does.** -/
theorem select_spec (c : Counters) (model : String) (l : Lookup) :
    Reserves c (c.select model l) := by
  unfold Counters.select
  split
  case h_1 d hd => exact direct_spec c d
  case h_2 =>
    split
    case h_1 sel hs => exact spread_spec hs
    case h_2 =>
      split
      case h_1 d hd => exact direct_spec c d
      case h_2 =>
        cases hs : c.spread model l.owners with
        | none => exact Or.inl ⟨rfl, rfl⟩
        | some sel => exact spread_spec hs

/-- A request that is routed to nothing has no slot. -/
theorem select_empty (c : Counters) (model : String) (h : l.isEmpty) :
    (c.select model l).slot = none ∧ (c.select model l).counters = c := by
  obtain ⟨pinned, exact, candidates, stored, owners⟩ := l
  simp only [Lookup.isEmpty, Bool.and_eq_true, Option.isNone_iff_eq_none,
    List.isEmpty_iff] at h
  obtain ⟨⟨⟨⟨rfl, rfl⟩, rfl⟩, rfl⟩, rfl⟩ := h
  simp [Counters.select, spread_nil]

end SparkDeck.Proxy
