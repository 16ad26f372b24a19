import SparkDeck.Pairing.Nodes

/-!
# When a call of the node registry is all or nothing

`RegistryCall.Clean` says it of each of the five calls, from any list and any file: mostly the write
has to go through, or nothing that was assigned before the call raised may be new. All five assign
before they write, so a write that fails leaves the change in memory; `update` and
`set_forward_token` also raise between two assignments.
-/

namespace SparkDeck.Pairing

open Backed

variable {urlparse : Urlparse} {s : Registry} {nodes : List Node} {nodeId : String} {node : Node}

/-- The node that an edit finds. -/
def remote (s : Registry) (nodeId : String) : Option Node :=
  if nodeId = localNodeId then none else find s.memory nodeId

theorem remoteNode_some (h : remote s nodeId = some node) :
    remoteNode nodeId s = .ok node s := by
  unfold remote at h
  obtain ⟨hlocal, h⟩ := Option.ite_none_left_eq_some.mp h
  refine Eq.trans (Effect.bind_ok rfl) ?_
  rw [h]
  dsimp only
  rw [if_neg hlocal]
  rfl

theorem remoteNode_none (h : remote s nodeId = none) :
    remoteNode nodeId s = .error (.value "remote node not found") s := by
  refine Eq.trans (Effect.bind_ok rfl) ?_
  unfold remote at h
  cases hfind : find s.memory nodeId with
  | none => rfl
  | some node =>
    dsimp only
    by_cases hlocal : nodeId = localNodeId
    · rw [if_pos hlocal]
      rfl
    · rw [if_neg hlocal, hfind] at h
      cases h

theorem find_of_remote (h : remote s nodeId = some node) : find s.memory nodeId = some node := by
  unfold remote at h
  split at h
  · cases h
  · exact h

theorem edit_eq_iff (h : find nodes nodeId = some node) (node' : Node) :
    edit nodeId (fun _ => node') nodes = nodes ↔ node' = node := by
  induction nodes with
  | nil => cases h
  | cons first nodes ih =>
    unfold find at h
    rw [List.find?_cons] at h
    unfold edit
    split at h
    case h_1 hid =>
      cases h
      rw [if_pos hid, List.cons.injEq]
      exact and_iff_left rfl
    case h_2 hid =>
      rw [if_neg (ne_true_of_eq_false hid), List.cons.injEq, ih h]
      exact and_iff_right rfl

/-- A node that keeps its id is found again. -/
theorem edit_edit (node node' : Node) (hid : hasId node (.text nodeId))
    (nodes : List Node) :
    edit nodeId (fun _ => node') (edit nodeId (fun _ => node) nodes)
      = edit nodeId (fun _ => node') nodes := by
  induction nodes with
  | nil => rfl
  | cons first nodes ih =>
    simp only [edit]
    by_cases hfirst : hasId first (.text nodeId)
    · rw [if_pos hfirst, if_pos hfirst, edit, if_pos hid]
    · rw [if_neg hfirst, if_neg hfirst, edit, if_neg hfirst, ih]

theorem hasId_of_find (h : find nodes nodeId = some node) : hasId node (.text nodeId) :=
  @List.find?_some Node (fun node => hasId node (.text nodeId)) node nodes h

theorem hasId_congr {node node' : Node} (h : node'.get "id" = node.get "id") (nodeId : Value) :
    hasId node' nodeId = hasId node nodeId := by
  unfold hasId
  rw [h]

theorem get_assignKeys (changes : Dict String Value) (node : Node) (keys : List String)
    (k : String) :
    (assignKeys changes node keys).get k
      = if k ∈ keys ∧ (changes.get k).isSome then changes.get k else node.get k := by
  induction keys generalizing node with
  | nil => simp [assignKeys]
  | cons key keys ih =>
    unfold assignKeys
    cases hc : changes.get key with
    | none =>
      dsimp only
      rw [ih]
      by_cases hk : k = key
      · subst hk
        simp [hc]
      · simp [hk]
    | some value =>
      rw [ih, Dict.get_insert]
      by_cases hk : k = key
      · subst hk
        simp [hc]
      · simp [hk]

/-- The keys that are set have the values they are set to. -/
def Unchanged (changes : Dict String Value) (node : Node) : Prop :=
  ∀ key ∈ editable, ∀ value, changes.get key = some value → node.get key = some value

theorem assignKeys_eq_iff {changes : Dict String Value} :
    assignKeys changes node editable = node ↔ Unchanged changes node := by
  constructor
  · intro h key hkey value hvalue
    rw [← h, get_assignKeys, if_pos ⟨hkey, by rw [hvalue]; rfl⟩, hvalue]
  · intro h
    refine Dict.ext fun k => ?_
    rw [get_assignKeys]
    split
    case isTrue hk =>
      obtain ⟨value, hvalue⟩ := Option.isSome_iff_exists.mp hk.2
      rw [hvalue, h k hk.1 value hvalue]
    case isFalse => rfl

theorem insert_eq_iff {node node' : Node} {key : String} {value : Value}
    (h : node'.get key = node.get key) :
    node'.insert key value = node ↔ node' = node ∧ node.get key = some value := by
  constructor
  · intro heq
    have hvalue : node.get key = some value := by
      rw [← heq]
      exact Dict.get_insert_self node' key value
    refine ⟨Dict.ext fun k => ?_, hvalue⟩
    by_cases hk : k = key
    · rw [hk, h]
    · rw [← heq, Dict.get_insert_of_ne node' value hk]
  · rintro ⟨rfl, hvalue⟩
    refine Dict.ext fun k => ?_
    rw [Dict.get_insert]
    split
    case isTrue hk => rw [hk, hvalue]
    case isFalse => rfl

theorem filter_eq_iff {node : Node} {key : String} :
    (node.filter fun k => k ≠ key) = node ↔ node.get key = none := by
  constructor
  · intro h
    rw [← h, Dict.get_filter]
    exact if_neg fun hn => hn rfl
  · intro h
    refine Dict.ext fun k => ?_
    rw [Dict.get_filter]
    split
    case isTrue => rfl
    case isFalse hk => rw [not_not.mp hk, h]

/-! ## The calls -/

/-- The node that `pair_remote` adds, where nothing raises before. -/
def added (urlparse : Urlparse) (args : PairArgs) (reply : Reply) (now : ℚ) :
    Option (Value × Node) :=
  match normalizeAgentUrl urlparse args.agentUrl, reply with
  | .ok url, .paired object =>
    if (field object "agent_token").truthy && (field object "node_id").truthy then
      (pairedNode args url object now).map fun node => (field object "node_id", node)
    else none
  | _, _ => none

inductive RegistryCall where
  | update (nodeId : String) (changes : Dict String Value) (wrote : Bool)
  | pairRemote (args : PairArgs) (reply : Reply) (now : ℚ) (cacheHeld wrote : Bool)
  | remove (nodeId : String) (wrote : Bool)
  | setForwardToken (nodeId : String) (digest : Option String) (wrote : Bool)
  | markUsageReconciled (nodeId : String) (wrote : Bool)

def RegistryCall.AllOrNothing (urlparse : Urlparse) (s : Registry) : RegistryCall → Prop
  | update nodeId changes wrote =>
    Backed.AllOrNothing nodesFile (Pairing.update urlparse nodeId changes wrote) s
  | pairRemote args reply now cacheHeld wrote =>
    Backed.AllOrNothing nodesFile (Pairing.pairRemote urlparse args reply now cacheHeld wrote) s
  | remove nodeId wrote => Backed.AllOrNothing nodesFile (Pairing.remove nodeId wrote) s
  | setForwardToken nodeId digest wrote =>
    Backed.AllOrNothing nodesFile (Pairing.setForwardToken nodeId digest wrote) s
  | markUsageReconciled nodeId wrote =>
    Backed.AllOrNothing nodesFile (Pairing.markUsageReconciled nodeId wrote) s

/-- The write goes through or nothing new is assigned; what raises after an assignment has assigned
nothing new. -/
def RegistryCall.Clean (urlparse : Urlparse) (s : Registry) : RegistryCall → Prop
  | update nodeId changes wrote =>
    match remote s nodeId with
    | none => Synced nodesFile s
    | some node =>
      if hiddenInvalid changes then Synced nodesFile s
      else match changes.get "agent_url" with
        | none => wrote ∨ Synced nodesFile s ∧ Unchanged changes node
        | some value => match normalizeAgentUrl urlparse value with
          | .error _ => Synced nodesFile s ∧ Unchanged changes node
          | .ok url => wrote ∨
            Synced nodesFile s ∧ Unchanged changes node ∧ node.get "agent_url" = some (.text url)
  | pairRemote args reply now cacheHeld wrote =>
    match added urlparse args reply now with
    | none => Synced nodesFile s
    | some (id, node) =>
      if wrote then (cacheHeld → id.hashable) ∨ drop id s.memory ++ [node] = s.memory
      else Synced nodesFile s ∧ drop id s.memory ++ [node] = s.memory
  | remove nodeId wrote =>
    if s.memory.any fun node => hasId node (.text nodeId) then wrote = true else Synced nodesFile s
  | setForwardToken nodeId digest wrote =>
    match remote s nodeId with
    | none => Synced nodesFile s
    | some node => match digest with
      | none => Synced nodesFile s ∧ node.get "forward_token" = none
      | some digest => wrote ∨ Synced nodesFile s ∧ node.get "forward_token" = none ∧
        node.get "forward_token_hash" = some (.text digest)
  | markUsageReconciled nodeId wrote =>
    match remote s nodeId with
    | none => Synced nodesFile s
    | some node =>
      if node.get "usage_reconciled" = some (.bool true) then Synced nodesFile s
      else wrote

theorem update_iff (nodeId : String) (changes : Dict String Value) (wrote : Bool) :
    RegistryCall.AllOrNothing urlparse s (.update nodeId changes wrote) ↔
      RegistryCall.Clean urlparse s (.update nodeId changes wrote) := by
  dsimp only [RegistryCall.AllOrNothing, RegistryCall.Clean]
  unfold update
  cases h : remote s nodeId with
  | none => exact AllOrNothing.bind_error (remoteNode_none h) _
  | some node =>
    have hfind := find_of_remote h
    have hid : hasId (assignKeys changes node editable) (.text nodeId) := by
      rw [hasId_congr _ (.text nodeId), hasId_of_find hfind]
      rw [get_assignKeys, if_neg fun hn => absurd hn.1 (by decide)]
    rw [AllOrNothing.bind_ok (remoteNode_some h)]
    dsimp only
    split
    case isTrue => exact AllOrNothing.bind_error rfl _
    case isFalse =>
      cases hurl : changes.get "agent_url" with
      | none =>
        unfold saveUpdated saveNodes
        refine (AllOrNothing.assign_save _ wrote _ ?_).trans ?_
        · exact fun t => ⟨_, rfl⟩
        · rw [edit_eq_iff hfind, assignKeys_eq_iff]
      | some value =>
        dsimp only
        cases hnormal : normalizeAgentUrl urlparse value with
        | error e =>
          rw [AllOrNothing.assign_throw, edit_eq_iff hfind, assignKeys_eq_iff]
        | ok url =>
          refine ((AllOrNothing.assign_assign _ _ _).trans
            (AllOrNothing.assign_save _ wrote _ ?_)).trans ?_
          · exact fun t => ⟨_, rfl⟩
          · have hkept :
                (assignKeys changes node editable).get "agent_url" = node.get "agent_url" := by
              rw [get_assignKeys, if_neg fun hn => absurd hn.1 (by decide)]
            rw [edit_edit _ _ hid, edit_eq_iff hfind, insert_eq_iff hkept, assignKeys_eq_iff]

theorem drop_eq_self (h : ¬ nodes.any (fun node => hasId node (.text nodeId))) :
    drop (.text nodeId) nodes = nodes := by
  refine List.filter_eq_self.mpr fun node hnode => ?_
  have hall := List.any_eq_false.mp (eq_false_of_ne_true h) node hnode
  rw [eq_false_of_ne_true hall]
  rfl

theorem length_drop_ne (h : nodes.any (fun node => hasId node (.text nodeId))) :
    (drop (.text nodeId) nodes).length ≠ nodes.length := by
  obtain ⟨node, hnode, hid⟩ := List.any_eq_true.mp h
  refine (List.length_filter_lt_length_iff_exists.mpr ⟨node, hnode, ?_⟩).ne
  rw [hid]
  exact Bool.false_ne_true

theorem remove_iff (nodeId : String) (wrote : Bool) :
    RegistryCall.AllOrNothing urlparse s (.remove nodeId wrote) ↔
      RegistryCall.Clean urlparse s (.remove nodeId wrote) := by
  dsimp only [RegistryCall.AllOrNothing, RegistryCall.Clean]
  have hrun : remove nodeId wrote s
      = (if (drop (.text nodeId) s.memory).length = s.memory.length then pure false
        else saveNodes wrote >>= fun _ => popStatus (.text nodeId) true >>= fun _ => pure true
          : RegistryProg Bool) { s with memory := drop (.text nodeId) s.memory } := rfl
  split
  case isTrue hany =>
    rw [if_neg (length_drop_ne hany)] at hrun
    refine (AllOrNothing.congr (q := assign (drop (.text nodeId)) >>= fun _ =>
      saveNodes wrote >>= fun _ => popStatus (.text nodeId) true >>= fun _ => pure true)
      hrun).trans ((AllOrNothing.assign_save _ wrote _ fun t => ⟨true, rfl⟩).trans
        (or_iff_left ?_))
    rintro ⟨-, hsame⟩
    exact length_drop_ne hany (congrArg List.length hsame)
  case isFalse hnone =>
    rw [drop_eq_self hnone, if_pos rfl] at hrun
    exact AllOrNothing.untouched hrun

/-- The list is saved, and then the id is looked up in the status cache. -/
theorem saved_popStatus_iff (f : List Node → List Node) (id : Value) (cacheHeld : Bool)
    (result : Node) :
    Backed.AllOrNothing nodesFile (assign f >>= fun _ => saveNodes true >>= fun _ =>
      popStatus id cacheHeld >>= fun _ => pure result) s ↔
      (cacheHeld → id.hashable) ∨ f s.memory = s.memory := by
  have hstep : (assign f >>= fun _ => saveNodes true >>= fun _ =>
      popStatus id cacheHeld >>= fun _ => pure result : RegistryProg Node) s
      = (popStatus id cacheHeld >>= fun _ => pure result : RegistryProg Node)
        ⟨f s.memory, some (f s.memory)⟩ := rfl
  cases hpop : cacheHeld && !id.hashable with
  | false =>
    have hrun (t : Registry) : popStatus id cacheHeld t = .ok () t := by
      unfold popStatus
      rw [hpop]
      rfl
    refine iff_of_true (AllOrNothing.saved (a := result) (m := f s.memory) ?_) (Or.inl ?_)
    · exact hstep.trans (Effect.bind_ok (hrun _))
    · intro hheld
      rw [hheld, Bool.true_and, Bool.not_eq_false'] at hpop
      exact hpop
  | true =>
    have hrun (t : Registry) : popStatus id cacheHeld t = .error .type t := by
      unfold popStatus
      rw [hpop]
      rfl
    rw [Bool.and_eq_true, Bool.not_eq_true'] at hpop
    have hfails : ¬ (cacheHeld → id.hashable) := fun h => by
      rw [hpop.2] at h
      exact Bool.false_ne_true (h hpop.1)
    rw [or_iff_right hfails]
    exact AllOrNothing.raised (hstep.trans (Effect.bind_error (hrun _)))

theorem pairRemote_iff (args : PairArgs) (reply : Reply) (now : ℚ) (cacheHeld wrote : Bool) :
    RegistryCall.AllOrNothing urlparse s (.pairRemote args reply now cacheHeld wrote) ↔
      RegistryCall.Clean urlparse s (.pairRemote args reply now cacheHeld wrote) := by
  dsimp only [RegistryCall.AllOrNothing, RegistryCall.Clean]
  unfold pairRemote added
  cases hurl : normalizeAgentUrl urlparse args.agentUrl with
  | error e => exact AllOrNothing.of_throw
  | ok url =>
    cases reply with
    | failed e => exact AllOrNothing.of_throw
    | paired object =>
      dsimp only
      have hnot : (!(field object "agent_token").truthy || !(field object "node_id").truthy)
          = !((field object "agent_token").truthy && (field object "node_id").truthy) :=
        (Bool.not_and _ _).symm
      rw [hnot]
      cases hfields : (field object "agent_token").truthy && (field object "node_id").truthy with
      | false => exact AllOrNothing.bind_error rfl _
      | true =>
        cases hnode : pairedNode args url object now with
        | none => exact AllOrNothing.of_throw
        | some node =>
          cases wrote with
          | false => exact AllOrNothing.changed rfl
          | true =>
            exact saved_popStatus_iff _ _ _ _

theorem markUsageReconciled_iff (nodeId : String) (wrote : Bool) :
    RegistryCall.AllOrNothing urlparse s (.markUsageReconciled nodeId wrote) ↔
      RegistryCall.Clean urlparse s (.markUsageReconciled nodeId wrote) := by
  dsimp only [RegistryCall.AllOrNothing, RegistryCall.Clean]
  unfold markUsageReconciled
  cases h : remote s nodeId with
  | none => exact AllOrNothing.bind_error (remoteNode_none h) _
  | some node =>
    have hfind := find_of_remote h
    rw [AllOrNothing.bind_ok (remoteNode_some h)]
    dsimp only
    split
    case isTrue => exact AllOrNothing.of_pure
    case isFalse hnot =>
      unfold saveNodes
      refine (AllOrNothing.assign_save_end _ wrote _).trans (or_iff_left ?_)
      rintro ⟨-, hsame⟩
      rw [edit_eq_iff hfind, insert_eq_iff rfl] at hsame
      exact hnot hsame.2

theorem setForwardToken_iff (nodeId : String) (digest : Option String) (wrote : Bool) :
    RegistryCall.AllOrNothing urlparse s (.setForwardToken nodeId digest wrote) ↔
      RegistryCall.Clean urlparse s (.setForwardToken nodeId digest wrote) := by
  dsimp only [RegistryCall.AllOrNothing, RegistryCall.Clean]
  unfold setForwardToken
  cases h : remote s nodeId with
  | none => exact AllOrNothing.bind_error (remoteNode_none h) _
  | some node =>
    have hfind := find_of_remote h
    rw [AllOrNothing.bind_ok (remoteNode_some h)]
    cases digest with
    | none =>
      dsimp only
      rw [AllOrNothing.assign_throw, edit_eq_iff hfind, filter_eq_iff]
    | some digest =>
      unfold saveNodes
      have hid : hasId (node.filter fun key => key ≠ "forward_token") (.text nodeId) := by
        rw [hasId_congr _ (.text nodeId), hasId_of_find hfind]
        rw [Dict.get_filter, if_pos (by decide)]
      refine ((AllOrNothing.assign_assign _ _ _).trans
        (AllOrNothing.assign_save_end _ wrote _)).trans ?_
      have hkept : (node.filter fun key => key ≠ "forward_token").get "forward_token_hash"
          = node.get "forward_token_hash" := by
        rw [Dict.get_filter, if_pos (by decide)]
      rw [edit_edit _ _ hid, edit_eq_iff hfind, insert_eq_iff hkept, filter_eq_iff]

end SparkDeck.Pairing
