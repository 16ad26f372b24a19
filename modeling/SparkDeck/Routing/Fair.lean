import SparkDeck.Routing.Shared

/-!
# Caps are honoured and load is spread

What the selections of `Routing.Shared` promise for every policy, every candidates and every state
that the calls lead to.

* `selectRouted_spec`: a policy fills its members in their order, each up to its cap, and goes over
  a cap only when no live member has room.
* `selectBalanced_spec`: a balanced selection takes an owner with the least in flight.
* `balancedRun_even`, `served_turns`: a run of such selections keeps the counts even, and requests
  that end before the next begins go round the ranking, from where the last ones stopped.
* `inflight_eq`: the counts are the slots that are held.
-/

namespace SparkDeck.Routing

open Spread Transition Function

variable {cfg : Config} {s : State} {candidates : List Candidate} {members : List PolicyMember}
  {m : PolicyMember} {modelId : String}

/-! ## Policies -/

/-- The member that a policy is to choose. -/
structure Chooses (s : State) (members : List PolicyMember) (m : PolicyMember) : Prop where
  mem : m ∈ members
  first : s.room m →
    ∃ before after, members = before ++ m :: after ∧ ∀ x ∈ before, s.room x = false
  full : s.room m = false →
    ∀ x ∈ members, s.room x = false ∧ s.inflight m.deploymentId ≤ s.inflight x.deploymentId

theorem chosen_spec (h : s.chosen members = some m) : Chooses s members m := by
  unfold State.chosen at h
  cases hfind : members.find? s.room with
  | some x =>
    rw [hfind, Option.some_or] at h
    cases h
    obtain ⟨hroom, before, after, hsplit, hbefore⟩ := List.find?_eq_some_iff_append.mp hfind
    refine ⟨List.mem_of_find?_eq_some hfind, fun _ => ⟨before, after, hsplit, fun y hy => ?_⟩,
      fun hfull => ?_⟩
    · exact (Bool.not_eq_true' _).mp (hbefore y hy)
    · rw [hroom] at hfull
      cases hfull
  | none =>
    rw [hfind, Option.none_or] at h
    have hnone : ∀ x ∈ members, s.room x = false := fun x hx =>
      eq_false_of_ne_true (List.find?_eq_none.mp hfind x hx)
    have hmem := List.argmin_mem h
    refine ⟨hmem, fun hroom => ?_, fun _ x hx => ⟨hnone x hx, List.le_of_mem_argmin
      (f := fun x : PolicyMember => s.inflight x.deploymentId) hx h⟩⟩
    rw [hnone m hmem] at hroom
    cases hroom

theorem chosen_eq_none (h : s.chosen members = none) : members = [] := by
  exact List.argmin_eq_none.mp (Option.or_eq_none_iff.mp h).2

theorem liveById_some {id : String} {c : Candidate} (h : liveById candidates id = some c) :
    c ∈ candidates ∧ c.id = id := by
  obtain ⟨hmem, hid⟩ := List.mem_filter.mp (List.mem_of_getLast? h)
  exact ⟨hmem, of_decide_eq_true hid⟩

theorem selectRouted_spec (cfg : Config) (s : State) (modelId : String)
    (candidates : List Candidate) :
    (liveMembers cfg modelId candidates = [] ∧
        s.selectRouted cfg modelId candidates = (none, s)) ∨
      ∃ m c, Chooses s (liveMembers cfg modelId candidates) m ∧ c ∈ candidates ∧
        c.id = m.deploymentId ∧ s.selectRouted cfg modelId candidates =
          (some c, { s with inflight := add s.inflight m.deploymentId }) := by
  unfold State.selectRouted
  cases hchosen : s.chosen (liveMembers cfg modelId candidates) with
  | none => exact Or.inl ⟨chosen_eq_none hchosen, rfl⟩
  | some m =>
    have hspec := chosen_spec hchosen
    obtain ⟨c, hc⟩ := Option.isSome_iff_exists.mp (List.mem_filter.mp hspec.mem).2
    obtain ⟨hmem, hid⟩ := liveById_some hc
    refine Or.inr ⟨m, c, hspec, hmem, hid, ?_⟩
    dsimp only
    rw [hc]

/-! ## Balanced selections -/

theorem mem_ranked {c : Candidate} : c ∈ ranked cfg candidates ↔ c ∈ candidates :=
  List.mem_insertionSort _

theorem ranked_perm (cfg : Config) (candidates : List Candidate) :
    (ranked cfg candidates).Perm candidates := List.perm_insertionSort _ _

variable {ordered : List Candidate}

theorem mem_tied {c : Candidate} :
    c ∈ s.tied ordered ↔ c ∈ ordered ∧ ∀ d ∈ ordered, s.inflight c.id ≤ s.inflight d.id := by
  unfold State.tied
  rw [List.mem_filter, List.all_eq_true]
  exact and_congr_right fun _ => forall₂_congr fun d _ => decide_eq_true_iff

theorem tied_ne_nil (h : ordered ≠ []) : s.tied ordered ≠ [] := by
  cases hleast : ordered.argmin fun c => s.inflight c.id with
  | none => exact absurd (List.argmin_eq_none.mp hleast) h
  | some c =>
    refine List.ne_nil_of_mem (mem_tied.mpr ⟨List.argmin_mem hleast, fun d hd => ?_⟩)
    exact List.le_of_mem_argmin (f := fun c : Candidate => s.inflight c.id) hd hleast

/-- Where all have one count, the cursor decides among all. -/
theorem tied_of_equal (h : ∀ c ∈ ordered, ∀ d ∈ ordered, s.inflight c.id = s.inflight d.id) :
    s.tied ordered = ordered := by
  refine List.filter_eq_self.mpr fun c hc => List.all_eq_true.mpr fun d hd => ?_
  exact decide_eq_true (h c hc d hd).le

/-- The turn that a selection is at. -/
def State.turnOf (cfg : Config) (s : State) (modelId : String) (candidates : List Candidate) :
    Turn := s.turn modelId ((ranked cfg candidates).map Candidate.id)

/-- The state after a selection of `c`. -/
def State.taken (cfg : Config) (s : State) (modelId : String) (candidates : List Candidate)
    (c : Candidate) : State :=
  ⟨add s.inflight c.id, update s.rotation modelId
    (some ⟨(s.turnOf cfg modelId candidates).order, (s.turnOf cfg modelId candidates).cursor + 1⟩)⟩

theorem selectBalanced_spec (cfg : Config) (s : State) (modelId : String)
    (h : candidates ≠ []) :
    ∃ c ∈ candidates, (∀ d ∈ candidates, s.inflight c.id ≤ s.inflight d.id) ∧
      s.selectBalanced cfg modelId candidates = (some c, s.taken cfg modelId candidates c) := by
  have hranked : ranked cfg candidates ≠ [] := by
    rw [ne_eq, ← List.length_eq_zero_iff, (ranked_perm cfg candidates).length_eq,
      List.length_eq_zero_iff]
    exact h
  have hlt := Nat.mod_lt (s.turnOf cfg modelId candidates).cursor
    (List.length_pos_iff.mpr (tied_ne_nil (s := s) hranked))
  obtain ⟨hmem, hleast⟩ := mem_tied.mp (List.getElem_mem hlt)
  refine ⟨_, mem_ranked.mp hmem, fun d hd => hleast d (mem_ranked.mpr hd), ?_⟩
  unfold State.selectBalanced
  dsimp only
  have hget : (s.tied (ranked cfg candidates))[(s.turn modelId
      ((ranked cfg candidates).map Candidate.id)).cursor
        % (s.tied (ranked cfg candidates)).length]? = some _ := List.getElem?_eq_getElem hlt
  rw [hget]
  rfl

theorem selectBalanced_fst (cfg : Config) (s : State) (modelId : String)
    (candidates : List Candidate) :
    (s.selectBalanced cfg modelId candidates).1
      = turn (s.tied (ranked cfg candidates)) (s.turnOf cfg modelId candidates).cursor := by
  unfold State.selectBalanced turn State.turnOf
  dsimp only
  split
  case h_1 h => exact h.symm
  case h_2 h => exact h.symm

/-- The state after balanced selections that are not released. -/
def balancedRun (cfg : Config) (s : State) : List (String × List Candidate) → State
  | [] => s
  | call :: calls => balancedRun cfg (s.selectBalanced cfg call.1 call.2).2 calls

theorem balancedRun_even {owners : List String} (calls : List (String × List Candidate))
    (hcalls : ∀ call ∈ calls, ∀ id, id ∈ call.2.map Candidate.id ↔ id ∈ owners)
    (heven : Even s.inflight owners) : Even (balancedRun cfg s calls).inflight owners := by
  induction calls generalizing s with
  | nil => exact heven
  | cons call calls ih =>
    obtain ⟨modelId, candidates⟩ := call
    refine ih (fun c hc => hcalls c (List.mem_cons_of_mem _ hc)) ?_
    have howners := hcalls _ List.mem_cons_self
    by_cases hnil : candidates = []
    · rw [hnil]
      exact heven
    · obtain ⟨c, hc, hleast, hrun⟩ := selectBalanced_spec cfg s modelId hnil
      rw [hrun]
      refine heven.add fun id hid => ?_
      obtain ⟨d, hd, rfl⟩ := List.mem_map.mp ((howners id).mpr hid)
      exact hleast d hd

/-! ## Requests one after the other -/

/-- A balanced selection whose request ends before the next begins. -/
def State.serve (cfg : Config) (s : State) (modelId : String) (candidates : List Candidate) :
    Option Candidate × State :=
  let r := s.selectBalanced cfg modelId candidates
  (r.1, match r.1 with
    | some c => r.2.release c.id
    | none => r.2)

def served (cfg : Config) (s : State) (modelId : String) :
    List (List Candidate) → List (Option Candidate)
  | [] => []
  | candidates :: rest =>
    (s.serve cfg modelId candidates).1 :: served cfg (s.serve cfg modelId candidates).2 modelId rest

variable {owners : List Candidate}

/-- The ranking is that of the candidates, in whatever order they come. -/
theorem ranked_congr (h : candidates.Perm owners) (hids : (owners.map Candidate.id).Nodup) :
    ranked cfg candidates = ranked cfg owners := by
  have htotal : Std.Total fun a b : Candidate =>
      balancedOwnerSortKey cfg b ≤ balancedOwnerSortKey cfg a := ⟨fun a b => le_total _ _⟩
  have htrans : IsTrans Candidate fun a b =>
      balancedOwnerSortKey cfg b ≤ balancedOwnerSortKey cfg a :=
    ⟨fun _ _ _ hab hbc => hbc.trans hab⟩
  refine List.Perm.eq_of_pairwise (fun a b ha hb hab hba => ?_)
    (List.pairwise_insertionSort _ _) (List.pairwise_insertionSort _ _)
    ((ranked_perm cfg candidates).trans (h.trans (ranked_perm cfg owners).symm))
  have hkey : (balancedOwnerStamp cfg a, a.id) = (balancedOwnerStamp cfg b, b.id) :=
    toLex.injective (le_antisymm hba hab)
  exact List.inj_on_of_nodup_map hids (h.mem_iff.mp (mem_ranked.mp ha)) (mem_ranked.mp hb)
    (congrArg Prod.snd hkey)

theorem turn_taken (s : State) (modelId : String) (h : ranked cfg candidates = ranked cfg owners)
    (c : Candidate) :
    (s.taken cfg modelId candidates c).turnOf cfg modelId owners
      = ⟨(ranked cfg owners).map Candidate.id, (s.turnOf cfg modelId owners).cursor + 1⟩ := by
  have horder : (s.turnOf cfg modelId owners).order = (ranked cfg owners).map Candidate.id := by
    unfold State.turnOf State.turn
    split
    case h_1 =>
      split
      case isTrue hsame => exact hsame
      case isFalse => rfl
    case h_2 => rfl
  have hsame : s.turnOf cfg modelId candidates = s.turnOf cfg modelId owners := by
    unfold State.turnOf
    rw [h]
  unfold State.taken
  rw [hsame, horder]
  conv_lhs => unfold State.turnOf State.turn
  dsimp only
  rw [update_self]
  dsimp only
  rw [if_pos rfl]
  rfl

/-- One request goes to the owner that the cursor points to. -/
theorem serve_turn (hperm : candidates.Perm owners) (hids : (owners.map Candidate.id).Nodup)
    (hne : owners ≠ []) (hequal : ∀ c ∈ owners, ∀ d ∈ owners, s.inflight c.id = s.inflight d.id) :
    (s.serve cfg modelId candidates).1
        = turn (ranked cfg owners) (s.turnOf cfg modelId owners).cursor ∧
      (s.serve cfg modelId candidates).2.inflight = s.inflight ∧
      ((s.serve cfg modelId candidates).2.turnOf cfg modelId owners).cursor
        = (s.turnOf cfg modelId owners).cursor + 1 := by
  have hranked : ranked cfg candidates = ranked cfg owners := ranked_congr hperm hids
  have hcandidates : candidates ≠ [] := fun hnil => hne (hnil ▸ hperm).symm.eq_nil
  obtain ⟨c, hc, -, hrun⟩ := selectBalanced_spec cfg s modelId hcandidates
  have hfirst : (s.selectBalanced cfg modelId candidates).1
      = turn (ranked cfg owners) (s.turnOf cfg modelId owners).cursor := by
    have htied : s.tied (ranked cfg owners) = ranked cfg owners :=
      tied_of_equal fun a ha b hb => hequal a (mem_ranked.mp ha) b (mem_ranked.mp hb)
    rw [selectBalanced_fst, hranked, htied]
    unfold State.turnOf
    rw [hranked]
  unfold State.serve
  rw [hrun] at hfirst ⊢
  refine ⟨hfirst, sub_add, ?_⟩
  exact congrArg Turn.cursor (turn_taken s modelId hranked c)

theorem served_turns (hids : (owners.map Candidate.id).Nodup) (hne : owners ≠ [])
    (requests : List (List Candidate)) (hperm : ∀ candidates ∈ requests, candidates.Perm owners)
    (hequal : ∀ c ∈ owners, ∀ d ∈ owners, s.inflight c.id = s.inflight d.id) :
    served cfg s modelId requests
      = turns (ranked cfg owners) (s.turnOf cfg modelId owners).cursor requests.length := by
  induction requests generalizing s with
  | nil => rfl
  | cons candidates rest ih =>
    obtain ⟨hfirst, hcounts, hcursor⟩ :=
      serve_turn (hperm candidates List.mem_cons_self) hids hne hequal
    rw [List.length_cons, turns_succ, served, hfirst,
      ih (fun c hc => hperm c (List.mem_cons_of_mem _ hc)) (by rwa [hcounts]), hcursor]

/-! ## The slots -/

/-- What is in flight are the slots that are held. -/
def Counted (s : Service) : Prop := ∀ id, s.state.inflight id = s.slots.count id

theorem Counted.take {s : Service} (h : Counted s) (id : String) (rotation : String → Option Turn) :
    Counted ⟨⟨add s.state.inflight id, rotation⟩, id :: s.slots⟩ := by
  intro k
  dsimp only
  by_cases hk : k = id
  · rw [hk, add_self, List.count_cons_self, h id]
  · rw [add_of_ne hk, List.count_cons_of_ne (Ne.symm hk), h k]

theorem counted_step {s t : Service} {call : Call} (hs : Counted s)
    (h : step cfg s call = some t) : Counted t := by
  cases call with
  | policy modelId candidates =>
    cases h
    obtain ⟨-, hrun⟩ | ⟨m, c, -, -, hid, hrun⟩ := selectRouted_spec cfg s.state modelId candidates
    · rw [hrun]
      exact hs
    · rw [hrun, ← hid]
      exact hs.take c.id s.state.rotation
  | balanced modelId candidates =>
    obtain ⟨c, hc, rfl⟩ := Option.map_eq_some_iff.mp h
    have hne : candidates ≠ [] := by
      rintro rfl
      cases hc
    obtain ⟨c', -, -, hrun⟩ := selectBalanced_spec cfg s.state modelId hne
    rw [hrun] at hc ⊢
    obtain rfl := Option.some.inj hc
    exact hs.take c'.id _
  | reserve deploymentId =>
    cases h
    unfold State.reserve
    split
    case isTrue => exact hs
    case isFalse => exact hs.take deploymentId s.state.rotation
  | release deploymentId =>
    dsimp only [step] at h
    obtain ⟨hmem, rfl⟩ := guard_some h
    intro k
    unfold State.release sub
    dsimp only
    by_cases hk : k = deploymentId
    · rw [hk, update_self, List.count_erase_self, hs deploymentId]
    · rw [update_of_ne hk, List.count_erase_of_ne hk, hs k]

theorem counted {s : Service} (h : Reach (step cfg) Free started s) : Counted s :=
  h.invariant (fun _ => rfl) fun _ _ _ hs _ hstep => counted_step hs hstep

/-! ## All selections -/

/-- Whom a policy selection pushes over its cap had nobody live beside it with room. -/
theorem over_cap (h : Chooses s members m) {limit : ℕ} (hlimit : m.maxConcurrency = some limit)
    (hover : limit < add s.inflight m.deploymentId m.deploymentId) :
    ∀ x ∈ members, s.room x = false := by
  have hroom : s.room m = false := by
    rw [add_self] at hover
    unfold State.room
    rw [hlimit]
    exact decide_eq_false (by omega)
  exact fun x hx => (h.full hroom x hx).1

theorem turnOf_fresh
    (h : ∀ turn, s.rotation modelId = some turn →
      turn.order ≠ (ranked cfg owners).map Candidate.id) :
    (s.turnOf cfg modelId owners).cursor = 0 := by
  unfold State.turnOf State.turn
  split
  case h_1 turn hturn => rw [if_neg (h turn hturn)]
  case h_2 => rfl

/-- Counts are held slots; policies honour caps, and balanced selections take a least loaded owner,
keep the counts even and go round the ranking, from its head where the ranking is new. -/
theorem shared_routing (cfg : Config) :
    (∀ s, Reach (step cfg) Free started s → ∀ id, s.state.inflight id = s.slots.count id) ∧
    (∀ (s : State) modelId candidates,
      (liveMembers cfg modelId candidates = [] ∧
          s.selectRouted cfg modelId candidates = (none, s)) ∨
        ∃ m c, Chooses s (liveMembers cfg modelId candidates) m ∧ c ∈ candidates ∧
          c.id = m.deploymentId ∧ s.selectRouted cfg modelId candidates =
            (some c, { s with inflight := add s.inflight m.deploymentId }) ∧
          ∀ limit, m.maxConcurrency = some limit →
            limit < (s.selectRouted cfg modelId candidates).2.inflight m.deploymentId →
            ∀ x ∈ liveMembers cfg modelId candidates, s.room x = false) ∧
    (∀ (s : State) modelId candidates, candidates ≠ [] → ∃ c ∈ candidates,
      (∀ d ∈ candidates, s.inflight c.id ≤ s.inflight d.id) ∧
        s.selectBalanced cfg modelId candidates = (some c, s.taken cfg modelId candidates c)) ∧
    (∀ (s : State) (owners : List String) calls,
      (∀ call ∈ calls, ∀ id, id ∈ call.2.map Candidate.id ↔ id ∈ owners) →
      Even s.inflight owners → Even (balancedRun cfg s calls).inflight owners) ∧
    ∀ (s : State) modelId (owners : List Candidate) requests, (owners.map Candidate.id).Nodup →
      owners ≠ [] → (∀ candidates ∈ requests, candidates.Perm owners) →
      (∀ c ∈ owners, ∀ d ∈ owners, s.inflight c.id = s.inflight d.id) →
      served cfg s modelId requests
          = turns (ranked cfg owners) (s.turnOf cfg modelId owners).cursor requests.length ∧
        (∀ c ∈ owners, requests.length / owners.length
            ≤ (served cfg s modelId requests).count (some c) ∧
          (served cfg s modelId requests).count (some c)
            ≤ (requests.length + owners.length - 1) / owners.length) ∧
        ((∀ turn, s.rotation modelId = some turn →
            turn.order ≠ (ranked cfg owners).map Candidate.id) →
          (s.turnOf cfg modelId owners).cursor = 0) := by
  refine ⟨fun s hs => counted hs, fun s modelId candidates => ?_,
    fun s modelId _ hne => selectBalanced_spec cfg s modelId hne,
    fun s _ calls hcalls heven => balancedRun_even calls hcalls heven,
    fun s modelId owners requests hids hne hperm hequal => ?_⟩
  · obtain hnone | ⟨m, c, hchooses, hc, hid, hrun⟩ := selectRouted_spec cfg s modelId candidates
    · exact Or.inl hnone
    · refine Or.inr ⟨m, c, hchooses, hc, hid, hrun, fun limit hlimit hover => ?_⟩
      rw [hrun] at hover
      exact over_cap hchooses hlimit hover
  · have hturns := @served_turns cfg s modelId owners hids hne requests hperm hequal
    refine ⟨hturns, fun c hc => ?_, turnOf_fresh⟩
    have hnodup : (ranked cfg owners).Nodup :=
      (ranked_perm cfg owners).nodup_iff.mpr (hids.of_map _)
    rw [hturns, ← (ranked_perm cfg owners).length_eq]
    exact count_turns hnodup (mem_ranked.mpr hc) _ _

/-! ## Two owners -/

def plain : Config := ⟨fun _ => none, fun _ => none⟩

def older : Candidate := ⟨"older", .number 1, .null⟩

def newer : Candidate := ⟨"newer", .number 2, .null⟩

theorem shared_routing_turns :
    served plain idle "m" [[older, newer], [newer, older], [older, newer]]
        = [some newer, some older, some newer] ∧
      (served plain idle "m" [[older, newer], [newer, older], [older, newer]]).count
        (some older) ≤ (3 + 2 - 1) / 2 := by
  have hall := (shared_routing plain).2.2.2.2 idle "m" [older, newer]
    [[older, newer], [newer, older], [older, newer]] (by decide) (by decide)
    (by simp [List.Perm.swap]) (fun _ _ _ _ => rfl)
  refine ⟨?_, (hall.2.1 older (by decide)).2⟩
  rw [hall.1]
  decide +kernel

/-- Where a request went before, the next one, alone on idle owners, does not go to the head of the
ranking: the rotation goes on. -/
theorem shared_routing_resumed :
    (idle.serve plain "m" [older, newer]).2.inflight older.id = 0 ∧
      (idle.serve plain "m" [older, newer]).2.inflight newer.id = 0 ∧
      (ranked plain [older, newer]).head? = some newer ∧
      served plain (idle.serve plain "m" [older, newer]).2 "m" [[older, newer]] = [some older] := by
  decide +kernel

end SparkDeck.Routing
