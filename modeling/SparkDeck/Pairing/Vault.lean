import SparkDeck.Pairing.Credentials
import SparkDeck.Pairing.Registered

/-!
# When a call on the credentials is all or nothing

`pair`, `authorize_controller` and `revoke_remote_access` write a copy and then take it over, so a
write that fails changes nothing. A rotation of the join code changes the values first: where its
write fails, the new code is in memory only, and `consume_cluster_join_code` may raise with the
rotation of an expired code behind it.

`allOrNothing_iff` is about the ten calls of both stores, from any state.
-/

namespace SparkDeck.Pairing

open Backed

variable {b : Builtins} {v : Vault}

/-- Both can be compared, and are the same. -/
def sameDigest (x y : String) : Bool := isAscii x && isAscii y && x = y

theorem compareDigest_same {x y : String} (h : sameDigest x y) (v : Vault) :
    compareDigest x y v = .ok true v := by
  unfold sameDigest at h
  rw [Bool.and_eq_true] at h
  unfold compareDigest
  rw [if_pos h.1]
  exact congrArg (fun b => EStateM.Result.ok b v) h.2

/-- What follows a comparison that does not succeed. -/
theorem compareDigest_other {x y : String} (h : sameDigest x y = false) (v : Vault) :
    compareDigest x y v = .ok false v ∨ compareDigest x y v = .error .type v := by
  unfold compareDigest
  cases hascii : isAscii x && isAscii y with
  | false => exact Or.inr rfl
  | true =>
    unfold sameDigest at h
    rw [hascii, Bool.true_and] at h
    exact Or.inl (congrArg (fun b => EStateM.Result.ok b v) h)

theorem compareDigest_iff (x y : String) :
    Backed.AllOrNothing credentialsFile (compareDigest x y) v ↔ Synced credentialsFile v := by
  cases h : sameDigest x y with
  | true => exact AllOrNothing.untouched (compareDigest_same h v)
  | false =>
    cases compareDigest_other h v with
    | inl h => exact AllOrNothing.untouched h
    | inr h => exact AllOrNothing.refused h

def accepted (token : String) (c : Credentials) : Bool :=
  token ≠ "" && match field c.data "agent_token" with
    | .text t => sameDigest token t
    | _ => false

theorem acceptsToken_same {token : String} (h : accepted token v.memory) :
    acceptsToken token v = .ok true v := by
  unfold accepted at h
  rw [Bool.and_eq_true] at h
  have hrun : acceptsToken token v = (if token = "" then pure false else
      match field v.memory.data "agent_token" with
      | .text t => compareDigest token t
      | _ => throw .type : VaultProg Bool) v := by
    unfold acceptsToken
    split <;> rfl
  rw [hrun, if_neg (of_decide_eq_true h.1)]
  cases ht : field v.memory.data "agent_token" with
  | text t =>
    rw [ht] at h
    exact compareDigest_same h.2 v
  | null | bool _ | number _ | nested _ _ =>
    rw [ht] at h
    exact absurd h.2 Bool.false_ne_true

theorem acceptsToken_other {token : String} (h : accepted token v.memory = false) :
    acceptsToken token v = .ok false v ∨ acceptsToken token v = .error .type v := by
  have hrun : acceptsToken token v = (if token = "" then pure false else
      match field v.memory.data "agent_token" with
      | .text t => compareDigest token t
      | _ => throw .type : VaultProg Bool) v := by
    unfold acceptsToken
    split <;> rfl
  rw [hrun]
  by_cases hempty : token = ""
  · rw [if_pos hempty]
    exact Or.inl rfl
  · rw [if_neg hempty]
    unfold accepted at h
    rw [decide_eq_true hempty, Bool.true_and] at h
    cases ht : field v.memory.data "agent_token" with
    | text t =>
      rw [ht] at h
      exact compareDigest_other h v
    | null | bool _ | number _ | nested _ _ => exact Or.inr rfl

/-- The calls, each with what it draws or reads, and whether its writes go through. -/
inductive VaultCall where
  | pair (pairingCode controllerId : Value) (p : PairDraw) (wrote : Bool)
  | authorizeController (token controllerId : String) (now : Instant) (wrote : Bool)
  | revokeRemoteAccess (r : RevokeDraw) (wrote : Bool)
  | currentClusterJoinCode (ttlSeconds now : ℚ) (r : Rotation)
  | consumeClusterJoinCode (joinCode : String) (now : ℚ) (r r' : Rotation)

def VaultCall.AllOrNothing (b : Builtins) (v : Vault) : VaultCall → Prop
  | pair pairingCode controllerId p wrote =>
    Backed.AllOrNothing credentialsFile (Pairing.pair b pairingCode controllerId p wrote) v
  | authorizeController token controllerId now wrote =>
    Backed.AllOrNothing credentialsFile
      (Pairing.authorizeController b token controllerId now wrote) v
  | revokeRemoteAccess r wrote =>
    Backed.AllOrNothing credentialsFile (Pairing.revokeRemoteAccess r wrote) v
  | currentClusterJoinCode ttlSeconds now r =>
    Backed.AllOrNothing credentialsFile (Pairing.currentClusterJoinCode b ttlSeconds now r) v
  | consumeClusterJoinCode joinCode now r r' =>
    Backed.AllOrNothing credentialsFile (Pairing.consumeClusterJoinCode b joinCode now r r') v

def validCode (b : Builtins) (pairingCode : Value) (c : Credentials) : Bool :=
  pairingCode.truthy && sameDigest (b.str pairingCode) (b.str (field c.data "pairing_code"))

def controller (b : Builtins) (controllerId : Value) : String :=
  strip (b.str (controllerId.orElse (.text "")))

/-- A rotation whose write goes through, or that draws what is there and saved. -/
def Rotation.Clean (r : Rotation) (v : Vault) : Prop :=
  r.wrote ∨ Synced credentialsFile v ∧ rotated r v.memory = v.memory

def VaultCall.Clean (b : Builtins) (v : Vault) : VaultCall → Prop
  | pair pairingCode controllerId p wrote =>
    if h : controller b controllerId = "" then Synced credentialsFile v
    else if validCode b pairingCode v.memory && wrote then
      (v.memory.data.get "node_id").isSome ∨ paired p _ h v.memory = v.memory
    else Synced credentialsFile v
  | authorizeController token controllerId _ wrote =>
    (wrote ∧ accepted token v.memory ∧ strip controllerId ≠ "" ∧
      owner b v.memory = "") ∨ Synced credentialsFile v
  | revokeRemoteAccess _ wrote => wrote ∨ Synced credentialsFile v
  | currentClusterJoinCode ttlSeconds now r =>
    match issuedAt b v.memory with
    | none => Synced credentialsFile v
    | some issued => if ttlSeconds < now - issued then r.Clean v else Synced credentialsFile v
  | consumeClusterJoinCode joinCode now r r' =>
    if joinCode = "" then Synced credentialsFile v
    else match issuedAt b v.memory with
    | none => Synced credentialsFile v
    | some issued =>
      if 600 < now - issued then
        -- the expired code is replaced before the other is compared with it
        r.Clean v ∧ (r.wrote →
          sameDigest joinCode (clusterJoinCode b (rotated r v.memory)) ∧ r'.wrote ∨
          rotated r v.memory = v.memory ∧
            (sameDigest joinCode (clusterJoinCode b v.memory) →
              rotated r' v.memory = v.memory))
      else if sameDigest joinCode (clusterJoinCode b v.memory) then r'.Clean v
      else Synced credentialsFile v

theorem revokeRemoteAccess_iff (r : RevokeDraw) (wrote : Bool) :
    VaultCall.AllOrNothing b v (.revokeRemoteAccess r wrote) ↔
      VaultCall.Clean b v (.revokeRemoteAccess r wrote) := by
  dsimp only [VaultCall.AllOrNothing, VaultCall.Clean]
  cases wrote with
  | false => exact (AllOrNothing.refused rfl).trans (or_iff_right Bool.false_ne_true).symm
  | true => exact iff_of_true (AllOrNothing.saved rfl) (Or.inl rfl)

theorem authorizeController_iff (token controllerId : String) (now : Instant) (wrote : Bool) :
    VaultCall.AllOrNothing b v (.authorizeController token controllerId now wrote) ↔
      VaultCall.Clean b v (.authorizeController token controllerId now wrote) := by
  dsimp only [VaultCall.AllOrNothing, VaultCall.Clean]
  unfold authorizeController
  cases haccepted : accepted token v.memory with
  | false =>
    rw [or_iff_right fun h => Bool.false_ne_true h.2.1]
    cases acceptsToken_other haccepted with
    | inl h => exact AllOrNothing.untouched (Effect.bind_ok h)
    | inr h => exact AllOrNothing.bind_error h _
  | true =>
    rw [AllOrNothing.bind_ok (acceptsToken_same haccepted)]
    simp only [Bool.not_true, Bool.false_eq_true, if_false]
    by_cases hid : strip controllerId = ""
    · rw [or_iff_right fun h => h.2.2.1 hid, dif_pos hid]
      exact AllOrNothing.of_pure
    · rw [dif_neg hid, AllOrNothing.get]
      by_cases howner : owner b v.memory = ""
      · simp only [howner, ne_eq, not_true_eq_false, if_false]
        refine (AllOrNothing.commit _ wrote _ fun t => ⟨true, rfl⟩).trans ?_
        simp only [hid, not_false_eq_true, and_true]
      · rw [if_pos howner, or_iff_right fun h => howner h.2.2.2]
        exact compareDigest_iff _ _

theorem currentClusterJoinCode_iff (ttlSeconds now : ℚ) (r : Rotation) :
    VaultCall.AllOrNothing b v (.currentClusterJoinCode ttlSeconds now r) ↔
      VaultCall.Clean b v (.currentClusterJoinCode ttlSeconds now r) := by
  dsimp only [VaultCall.AllOrNothing, VaultCall.Clean]
  unfold currentClusterJoinCode
  rw [AllOrNothing.get]
  dsimp only
  cases hissued : issuedAt b v.memory with
  | none => exact AllOrNothing.of_throw
  | some issued =>
    dsimp only
    split
    case isTrue =>
      exact AllOrNothing.assign_save _ r.wrote _ fun t => ⟨_, rfl⟩
    case isFalse => exact AllOrNothing.untouched (a := clusterJoinCode b v.memory) rfl

/-! ### Pairing -/

theorem validatePairingCode_valid {pairingCode : Value}
    (h : validCode b pairingCode v.memory) :
    validatePairingCode b pairingCode v = .ok () v := by
  unfold validCode at h
  rw [Bool.and_eq_true] at h
  unfold validatePairingCode
  rw [h.1]
  exact Effect.bind_ok (compareDigest_same h.2 v)

theorem validatePairingCode_invalid {pairingCode : Value}
    (h : validCode b pairingCode v.memory = false) :
    ∃ e, validatePairingCode b pairingCode v = .error e v := by
  unfold validCode at h
  unfold validatePairingCode
  cases htruthy : pairingCode.truthy with
  | false => exact ⟨.value "invalid pairing code", rfl⟩
  | true =>
    rw [htruthy, Bool.true_and] at h
    cases compareDigest_other h v with
    | inl h => exact ⟨.value "invalid pairing code", Effect.bind_ok h⟩
    | inr h =>
      exact ⟨.type, Effect.bind_error (m := compareDigest (b.str pairingCode) _) h⟩

theorem paired_nodeId (p : PairDraw) (controllerId : String) (h : controllerId ≠ "")
    (c : Credentials) : (paired p controllerId h c).data.get "node_id" = c.data.get "node_id" := by
  unfold paired Credentials.setTime Credentials.setText
  simp only [Dict.get_insert]
  rw [if_neg (by decide), if_neg (by decide), if_neg (by decide), if_neg (by decide)]

theorem pair_iff (pairingCode controllerId : Value) (p : PairDraw) (wrote : Bool) :
    VaultCall.AllOrNothing b v (.pair pairingCode controllerId p wrote) ↔
      VaultCall.Clean b v (.pair pairingCode controllerId p wrote) := by
  dsimp only [VaultCall.AllOrNothing, VaultCall.Clean]
  unfold pair
  cases hvalid : validCode b pairingCode v.memory with
  | false =>
    obtain ⟨e, he⟩ := validatePairingCode_invalid hvalid
    rw [AllOrNothing.bind_error he]
    simp only [Bool.false_and, Bool.false_eq_true, if_false, dite_eq_ite, ite_self]
  | true =>
    rw [AllOrNothing.bind_ok (validatePairingCode_valid hvalid)]
    unfold controller
    by_cases hid : strip (b.str (controllerId.orElse (.text ""))) = ""
    · rw [dif_pos hid, dif_pos hid]
      exact AllOrNothing.of_throw
    · rw [dif_neg hid, dif_neg hid, Bool.true_and, AllOrNothing.get]
      cases wrote with
      | false => exact AllOrNothing.refused rfl
      | true =>
        have hnode := paired_nodeId p _ hid v.memory
        rw [if_pos rfl, ← hnode]
        dsimp only
        cases hget : (paired p _ hid v.memory).data.get "node_id" with
        -- the copy is saved and taken over, and then the answer has no id to give
        | none =>
          refine Iff.trans ?_ (or_iff_right Bool.false_ne_true).symm
          exact AllOrNothing.raised rfl
        | some nodeId => exact iff_of_true (AllOrNothing.saved rfl) (Or.inl rfl)

/-! ### Consuming a join code -/

/-- What is left to do once the code is known. -/
def spend (joinCode : String) (r : Rotation) (code : String) : VaultProg Unit := do
  let same ← compareDigest joinCode code
  if !same then throw (.value "invalid or expired cluster join code")
  rotateClusterJoinCode r

theorem consume_eq (joinCode : String) (now : ℚ) (r r' : Rotation) (h : joinCode ≠ "") :
    consumeClusterJoinCode b joinCode now r r'
      = currentClusterJoinCode b 600 now r >>= spend joinCode r' := by
  unfold consumeClusterJoinCode
  rw [if_neg h]
  rfl

theorem spend_same {joinCode code : String} (h : sameDigest joinCode code) (r : Rotation)
    (v : Vault) : spend joinCode r code v = rotateClusterJoinCode r v :=
  Effect.bind_ok (compareDigest_same h v)

theorem spend_other {joinCode code : String} (h : sameDigest joinCode code = false) (r : Rotation)
    (v : Vault) : ∃ e, spend joinCode r code v = .error e v := by
  cases compareDigest_other h v with
  | inl h => exact ⟨.value "invalid or expired cluster join code", Effect.bind_ok h⟩
  | inr h => exact ⟨.type, Effect.bind_error h⟩

theorem spend_iff (joinCode : String) (r : Rotation) (code : String) :
    Backed.AllOrNothing credentialsFile (spend joinCode r code) v ↔
      if sameDigest joinCode code then r.Clean v else Synced credentialsFile v := by
  cases h : sameDigest joinCode code with
  | true =>
    rw [AllOrNothing.congr (spend_same h r v), if_pos rfl]
    exact AllOrNothing.assign_save_end _ r.wrote _
  | false =>
    obtain ⟨e, he⟩ := spend_other h r v
    exact AllOrNothing.refused he

/-- After the expired code is replaced, and the new one saved. -/
theorem spend_rotated_iff {p : VaultProg Unit} {c : Credentials} {code joinCode : String}
    {r : Rotation} (h : p v = spend joinCode r code ⟨c, some c⟩) :
    Backed.AllOrNothing credentialsFile p v ↔
      sameDigest joinCode code ∧ r.wrote ∨
        c = v.memory ∧ (sameDigest joinCode code → rotated r v.memory = v.memory) := by
  cases hsame : sameDigest joinCode code with
  | false =>
    obtain ⟨e, he⟩ := spend_other hsame r ⟨c, some c⟩
    rw [AllOrNothing.raised (h.trans he)]
    simp only [Bool.false_eq_true, false_and, false_or, false_implies, and_true]
  | true =>
    rw [spend_same hsame] at h
    cases hwrote : r.wrote with
    | true =>
      have hrun : rotateClusterJoinCode r ⟨c, some c⟩
          = .ok () ⟨rotated r c, some (rotated r c)⟩ := by
        unfold rotateClusterJoinCode
        rw [hwrote]
        rfl
      exact iff_of_true (AllOrNothing.saved (h.trans hrun)) (Or.inl ⟨rfl, rfl⟩)
    | false =>
      have hrun : rotateClusterJoinCode r ⟨c, some c⟩ = .error .os ⟨rotated r c, some c⟩ := by
        unfold rotateClusterJoinCode
        rw [hwrote]
        rfl
      rw [AllOrNothing.error_iff (h.trans hrun), or_iff_right fun h => Bool.false_ne_true h.2]
      dsimp only
      constructor
      · rintro ⟨hmemory, hsynced⟩
        have hc : c = rotated r c := Option.some.inj hsynced
        rw [← hc] at hmemory
        subst hmemory
        exact ⟨rfl, fun _ => hc.symm⟩
      · rintro ⟨rfl, hkept⟩
        exact ⟨hkept rfl, congrArg some (hkept rfl).symm⟩

theorem consumeClusterJoinCode_iff (joinCode : String) (now : ℚ) (r r' : Rotation) :
    VaultCall.AllOrNothing b v (.consumeClusterJoinCode joinCode now r r') ↔
      VaultCall.Clean b v (.consumeClusterJoinCode joinCode now r r') := by
  dsimp only [VaultCall.AllOrNothing, VaultCall.Clean]
  by_cases hempty : joinCode = ""
  · rw [if_pos hempty]
    unfold consumeClusterJoinCode
    rw [if_pos hempty]
    exact AllOrNothing.bind_error rfl _
  rw [if_neg hempty, consume_eq joinCode now r r' hempty]
  have hcurrent : currentClusterJoinCode b 600 now r v = (match issuedAt b v.memory with
      | none => throw (.value "could not convert to float")
      | some issued => if 600 < now - issued then
          rotateClusterJoinCode r >>= fun _ => get >>= fun s => pure (clusterJoinCode b s.memory)
        else get >>= fun s => pure (clusterJoinCode b s.memory) : VaultProg String) v := rfl
  cases hissued : issuedAt b v.memory with
  | none =>
    rw [hissued] at hcurrent
    exact AllOrNothing.bind_error hcurrent _
  | some issued =>
    rw [hissued] at hcurrent
    dsimp only at hcurrent ⊢
    split at hcurrent
    case isTrue hexpired =>
      rw [if_pos hexpired]
      unfold rotateClusterJoinCode at hcurrent
      unfold Rotation.Clean
      cases hwrote : r.wrote with
      | false =>
        rw [hwrote] at hcurrent
        simp only [Bool.false_eq_true, false_or, false_implies, and_true]
        exact AllOrNothing.changed (Effect.bind_error hcurrent)
      | true =>
        rw [hwrote] at hcurrent
        simp only [true_or, true_and, true_implies]
        refine (spend_rotated_iff (Effect.bind_ok hcurrent)).trans
          (or_congr_right (and_congr_right fun hsame => ?_))
        have hsame : rotated r v.memory = v.memory := hsame
        rw [hsame]
    case isFalse hfresh =>
      rw [if_neg hfresh, AllOrNothing.bind_ok hcurrent]
      exact spend_iff joinCode r' _

/-! ## Both stores -/

theorem registryCall_iff {urlparse : Urlparse} {s : Registry} (call : RegistryCall) :
    call.AllOrNothing urlparse s ↔ call.Clean urlparse s := by
  cases call with
  | update nodeId changes wrote => exact update_iff nodeId changes wrote
  | pairRemote args reply now cacheHeld wrote => exact pairRemote_iff args reply now cacheHeld wrote
  | remove nodeId wrote => exact remove_iff nodeId wrote
  | setForwardToken nodeId digest wrote => exact setForwardToken_iff nodeId digest wrote
  | markUsageReconciled nodeId wrote => exact markUsageReconciled_iff nodeId wrote

theorem vaultCall_iff (call : VaultCall) : call.AllOrNothing b v ↔ call.Clean b v := by
  cases call with
  | pair pairingCode controllerId p wrote => exact pair_iff pairingCode controllerId p wrote
  | authorizeController token controllerId now wrote =>
    exact authorizeController_iff token controllerId now wrote
  | revokeRemoteAccess r wrote => exact revokeRemoteAccess_iff r wrote
  | currentClusterJoinCode ttlSeconds now r => exact currentClusterJoinCode_iff ttlSeconds now r
  | consumeClusterJoinCode joinCode now r r' => exact consumeClusterJoinCode_iff joinCode now r r'

/-- Each call of the ten, from any state: it is all or nothing exactly when it is clean. -/
theorem allOrNothing_iff (urlparse : Urlparse) (b : Builtins) :
    (∀ (s : Registry) (call : RegistryCall), call.AllOrNothing urlparse s ↔ call.Clean urlparse s) ∧
      ∀ (v : Vault) (call : VaultCall), call.AllOrNothing b v ↔ call.Clean b v :=
  ⟨fun _ => registryCall_iff, fun _ => vaultCall_iff⟩

/-- `urlparse` of `ftp://b`. -/
def ftpParse : Urlparse := fun _ => .ok ⟨"ftp", some "b", none, none, "", ""⟩

/-- A paired node, saved. -/
def pairedRegistry : Registry :=
  let nodes := [nodeOf [("id", .text "n"), ("name", .text "old"), ("agent_url", .text "http://b")]]
  ⟨nodes, some nodes⟩

/-- A malformed URL next to a new name is refused with the name changed in memory; and a node is
gone from memory though its removal could not be saved. -/
theorem update_not_clean :
    (∃ e t, update ftpParse "n"
        (nodeOf [("name", .text "new"), ("agent_url", .text "ftp://b")]) true pairedRegistry
          = .error e t ∧ t.file = pairedRegistry.file ∧
        t.memory.map (fun node => node.get "name") = [some (.text "new")]) ∧
      ¬ RegistryCall.AllOrNothing ftpParse pairedRegistry
        (.update "n" (nodeOf [("name", .text "new"), ("agent_url", .text "ftp://b")]) true) ∧
      ¬ RegistryCall.AllOrNothing ftpParse pairedRegistry (.remove "n" false) := by
  refine ⟨⟨_, _, rfl, rfl, rfl⟩, ?_, ?_⟩
  · rw [registryCall_iff]
    rintro ⟨-, hunchanged⟩
    exact absurd (hunchanged "name" (by decide) (.text "new") rfl) (by decide)
  · rw [registryCall_iff]
    exact Bool.false_ne_true

end SparkDeck.Pairing
