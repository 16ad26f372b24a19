import Mathlib.Tactic.IntervalCases
import SparkDeck.Balance.Select

/-!
# Requests are spread evenly

What the route of `Balance.Select` promises for every deployment, every state of the load table and
every rotation counter.

* `coordinators_spec`: one running rank-0 member for every running group.
* `route_perm`: the route has the routable members, each once.
* `head_least`: where one of them is available, the first on the route is, with the least load; a
  cache hint changes nothing of that.
* `Even`, kept by every selection (`select_even`), and so by a run of them: the loads of two
  available candidates differ by one at most.
* `served_rotate`: requests that end before the next begins and that no hint applies to go round
  the members.
-/

namespace SparkDeck.Cluster

variable {M : Type*} {v : View M} {members : List M} {m : M}

theorem View.mem_pool (h : m ∈ v.pool members) :
    m ∈ members ∧ ((∃ n ∈ members, v.available n) → v.available m) := by
  unfold View.pool at h
  split at h
  case isTrue hnone =>
    refine ⟨h, ?_⟩
    rintro ⟨n, hn, hav⟩
    have hmem := List.mem_filter.mpr ⟨hn, hav⟩
    rw [hnone] at hmem
    cases hmem
  case isFalse =>
    obtain ⟨hm, hav⟩ := List.mem_filter.mp h
    exact ⟨hm, fun _ => hav⟩

theorem View.pool_of_available (hm : m ∈ members) (hav : v.available m) :
    m ∈ v.pool members := by
  have hmem := List.mem_filter.mpr ⟨hm, hav⟩
  unfold View.pool
  split
  · exact hm
  · exact hmem

theorem View.pool_ne_nil (h : members ≠ []) : v.pool members ≠ [] := by
  unfold View.pool
  split
  · exact h
  · assumption

/-- The chosen member is of the pool, and none there has less load. -/
theorem View.balanced_least (h : v.balanced members = some m) :
    m ∈ v.pool members ∧ ∀ n ∈ v.pool members, v.active m ≤ v.active n := by
  obtain ⟨hm, hall⟩ := List.mem_filter.mp (List.mem_of_getElem? h)
  refine ⟨hm, fun n hn => ?_⟩
  exact of_decide_eq_true (List.all_eq_true.mp hall n hn)

theorem View.tied_ne_nil (h : members ≠ []) : v.tied members ≠ [] := by
  obtain ⟨x, hx⟩ := List.exists_mem_of_ne_nil _ (View.pool_ne_nil (v := v) h)
  obtain ⟨m, hm, hleast⟩ :=
    (measure v.active).wf.has_min { n | n ∈ v.pool members } ⟨x, hx⟩
  refine List.ne_nil_of_mem (a := m) (List.mem_filter.mpr ⟨hm, List.all_eq_true.mpr ?_⟩)
  intro n hn
  exact decide_eq_true (Nat.le_of_not_lt (hleast n hn))

theorem View.balanced_isSome (h : members ≠ []) : ∃ m, v.balanced members = some m := by
  have hpos : 0 < (v.tied members).length := List.length_pos_iff.mpr (View.tied_ne_nil h)
  exact ⟨_, List.getElem?_eq_getElem (Nat.mod_lt v.rotation hpos)⟩

/-- Where all of the pool have one load, the rotation decides among the pool. -/
theorem View.balanced_of_equal
    (h : ∀ m ∈ v.pool members, ∀ n ∈ v.pool members, v.active m = v.active n) :
    v.balanced members = (v.pool members)[v.rotation % (v.pool members).length]? := by
  have htied : v.tied members = v.pool members := by
    refine List.filter_eq_self.mpr fun m hm => List.all_eq_true.mpr fun n hn => ?_
    exact decide_eq_true (Nat.le_of_eq (h m hm n hn))
  unfold View.balanced
  rw [htied]

end SparkDeck.Cluster

namespace SparkDeck.Balance

open Cluster (View)
open Affinity (Table)

variable {h : Host} {d : Deployment} {s : State} {c : Candidate}

/-! ## The coordinators -/

/-- A running member of rank 0. -/
def Candidate.coordinates (c : Candidate) : Bool :=
  c.rank = 0 && text c.member.desiredState ≠ "stopped" && text c.member.status = "running"

/-- `by_instance.setdefault` over a list of members. -/
def byInstance (l : List (ℤ × Candidate)) (members : List Candidate) : List (ℤ × Candidate) :=
  members.foldl (fun l c =>
    if (Assoc.get l c.instance).isSome then l else Assoc.set l c.instance c) l

/-- A map from instances to members of them. -/
structure Indexed (members : List Candidate) (l : List (ℤ × Candidate)) : Prop where
  nodup : (l.map Prod.fst).Nodup
  mem : ∀ x ∈ l, x.2 ∈ members ∧ x.2.instance = x.1

theorem keys_nodup_set {l : List (ℤ × Candidate)} {i : ℤ} (hl : (l.map Prod.fst).Nodup)
    (hnew : i ∉ l.map Prod.fst) : ((Assoc.set l i c).map Prod.fst).Nodup := by
  induction l with
  | nil => exact List.nodup_singleton _
  | cons y rest ih =>
    rw [List.map_cons, List.nodup_cons] at hl
    rw [List.map_cons, List.mem_cons, not_or] at hnew
    unfold Assoc.set
    rw [if_neg (Ne.symm hnew.1), List.map_cons, List.nodup_cons]
    refine ⟨fun hmem => ?_, ih hl.2 hnew.2⟩
    rcases Assoc.mem_keys_set.mp hmem with heq | hmem
    · exact hnew.1 heq.symm
    · exact hl.1 hmem

theorem indexed_step {members : List Candidate} {l : List (ℤ × Candidate)}
    (hl : Indexed members l) (hc : c ∈ members) :
    Indexed members
        (if (Assoc.get l c.instance).isSome then l else Assoc.set l c.instance c) ∧
      ∀ i, (i = c.instance ∨ i ∈ l.map Prod.fst) →
        i ∈ (if (Assoc.get l c.instance).isSome then l else Assoc.set l c.instance c).map
          Prod.fst := by
  split
  case isTrue hget =>
    obtain ⟨a, ha⟩ := Option.isSome_iff_exists.mp hget
    refine ⟨hl, fun i hi => ?_⟩
    rcases hi with rfl | hi
    · exact List.mem_map.mpr ⟨_, Assoc.mem_of_get ha, rfl⟩
    · exact hi
  case isFalse hget =>
    have hnew : c.instance ∉ l.map Prod.fst := by
      intro hmem
      obtain ⟨x, hx, hxc⟩ := List.mem_map.mp hmem
      obtain ⟨a, ha⟩ := Assoc.get_isSome_of_mem hx
      rw [hxc] at ha
      exact hget (by rw [ha]; rfl)
    refine ⟨⟨keys_nodup_set hl.nodup hnew, fun x hx => ?_⟩, fun i hi => Assoc.mem_keys_set.mpr hi⟩
    rcases Assoc.mem_set hx with rfl | hx
    · exact ⟨hc, rfl⟩
    · exact hl.mem x hx

theorem byInstance_spec {members rest : List Candidate} {l : List (ℤ × Candidate)}
    (hl : Indexed members l) (hrest : ∀ c ∈ rest, c ∈ members) :
    Indexed members (byInstance l rest) ∧
      ∀ i, (i ∈ rest.map Candidate.instance ∨ i ∈ l.map Prod.fst) →
        i ∈ (byInstance l rest).map Prod.fst := by
  induction rest generalizing l with
  | nil => exact ⟨hl, fun i hi => hi.resolve_left List.not_mem_nil⟩
  | cons c rest ih =>
    obtain ⟨hstep, hkeys⟩ := indexed_step hl (hrest c List.mem_cons_self)
    obtain ⟨hall, hcover⟩ := ih hstep fun x hx => hrest x (List.mem_cons_of_mem c hx)
    refine ⟨hall, fun i hi => hcover i ?_⟩
    rcases hi with hi | hi
    · rcases List.mem_cons.mp hi with rfl | hi
      · exact Or.inr (hkeys _ (Or.inl rfl))
      · exact Or.inl hi
    · exact Or.inr (hkeys i (Or.inr hi))

/-- One running member of rank 0 for every instance that has one. -/
theorem coordinators_spec (d : Deployment) :
    (d.coordinators.map Candidate.instance).Nodup ∧
      (∀ c ∈ d.coordinators, c ∈ d.sorted ∧ c.coordinates) ∧
      ∀ c ∈ d.sorted, c.coordinates → ∃ k ∈ d.coordinators, k.instance = c.instance := by
  obtain ⟨hindexed, hcover⟩ := @byInstance_spec (d.sorted.filter Candidate.coordinates)
    (d.sorted.filter Candidate.coordinates) [] ⟨List.nodup_nil, by simp⟩ fun _ hc => hc
  have hperm : d.coordinators.Perm
      ((byInstance [] (d.sorted.filter Candidate.coordinates)).map Prod.snd) :=
    (List.perm_insertionSort _ _).map _
  have hinstances : ((byInstance [] (d.sorted.filter Candidate.coordinates)).map Prod.snd).map
      Candidate.instance =
        (byInstance [] (d.sorted.filter Candidate.coordinates)).map Prod.fst := by
    rw [List.map_map]
    exact List.map_congr_left fun x hx => (hindexed.mem x hx).2
  refine ⟨?_, ?_, ?_⟩
  · rw [(hperm.map _).nodup_iff, hinstances]
    exact hindexed.nodup
  · intro c hc
    obtain ⟨x, hx, rfl⟩ := List.mem_map.mp (hperm.mem_iff.mp hc)
    exact List.mem_filter.mp (hindexed.mem x hx).1
  · intro c hc hrun
    have hi := hcover c.instance
      (Or.inl (List.mem_map.mpr ⟨c, List.mem_filter.mpr ⟨hc, hrun⟩, rfl⟩))
    rw [← hinstances] at hi
    obtain ⟨k, hk, hki⟩ := List.mem_map.mp hi
    exact ⟨k, hperm.mem_iff.mpr hk, hki⟩

theorem routable_nodup (d : Deployment) : d.routable.Nodup := by
  unfold Deployment.routable
  split
  · exact (coordinators_spec d).1.of_map _
  · exact sorted_nodup d
  · exact (sorted_nodup d).sublist (List.take_sublist _ _)

/-! ## The route has the routable members -/

theorem cons_filter_perm {l : List Candidate} (hl : l.Nodup) (hc : c ∈ l) :
    (c :: l.filter (· ≠ c)).Perm l := by
  have herase : l.filter (· ≠ c) = l.erase c := by
    rw [hl.erase_eq_filter]
    exact List.filter_congr fun x _ => by simp [bne, Bool.beq_eq_decide_eq]
  rw [herase]
  exact (List.perm_cons_erase hc).symm

variable {available : Candidate → Bool}

theorem spread_perm {members : List Candidate} (hl : members.Nodup) :
    (spread h d s available members).1.Perm members := by
  unfold spread balanced
  cases hb : (view h d s).balanced members with
  | none =>
    by_cases hne : members = []
    · rw [hne]
    · obtain ⟨m, hm⟩ := View.balanced_isSome (v := view h d s) hne
      cases hb.symm.trans hm
  | some chosen =>
    exact ((List.perm_insertionSort _ _).cons chosen).trans
      (cons_filter_perm hl (View.balanced_mem hb))

theorem spread_head {members : List Candidate} :
    (spread h d s available members).1.head? = (view h d s).balanced members := by
  unfold spread balanced
  cases (view h d s).balanced members <;> rfl

theorem spread_state {members : List Candidate} :
    (spread h d s available members).2.loads = s.loads ∧
      (spread h d s available members).2.rotation (text d.id) = s.rotation (text d.id) + 1 := by
  unfold spread balanced
  cases (view h d s).balanced members with
  | none | some chosen => exact ⟨rfl, Function.update_self _ _ _⟩

/-- What `_cluster_route_order` does: it is a choice among the routable members, or there is one
at most. -/
theorem routeOrder_cases (h : Host) (d : Deployment) (s : State) :
    (∃ available, routeOrder h d s = spread h d s available d.routable) ∨
      (routeOrder h d s = (d.routable, s) ∧ d.routable.length ≤ 1) := by
  unfold routeOrder Deployment.routable
  cases d.mode with
  | groupedSharded =>
    dsimp only
    split
    case isTrue hnil =>
      rw [hnil]
      exact Or.inr ⟨rfl, Nat.zero_le _⟩
    case isFalse => exact Or.inl ⟨_, rfl⟩
  | replicated =>
    dsimp only
    split
    case isTrue hlt =>
      rw [List.take_of_length_le (Nat.le_of_lt_succ hlt)]
      exact Or.inr ⟨rfl, Nat.le_of_lt_succ hlt⟩
    case isFalse => exact Or.inl ⟨_, rfl⟩
  | other => exact Or.inr ⟨rfl, List.length_take_le 1 _⟩

theorem routeOrder_perm (h : Host) (d : Deployment) (s : State) :
    (routeOrder h d s).1.Perm d.routable := by
  obtain ⟨available, hr⟩ | ⟨hr, -⟩ := routeOrder_cases h d s
  · rw [hr]
    exact spread_perm (routable_nodup d)
  · rw [hr]

theorem routeOrder_loads (h : Host) (d : Deployment) (s : State) :
    (routeOrder h d s).2.loads = s.loads := by
  obtain ⟨available, hr⟩ | ⟨hr, -⟩ := routeOrder_cases h d s
  · rw [hr]
    exact spread_state.1
  · rw [hr]

section Hint

variable {σ δ : Type} [DecidableEq σ] [DecidableEq δ] {context : Option (Context σ δ)}
  {candidates : List Candidate}

theorem targets_mem {k : String} (ht : Assoc.get (targets d candidates) k = some c) :
    c ∈ candidates := by
  have hall : ∀ (l : List (String × Candidate)) (rest : List Candidate) (x : String × Candidate),
      x ∈ rest.foldl (fun l c => Assoc.set l (d.key c) c) l → x.2 ∈ rest ∨ x ∈ l := by
    intro l rest
    induction rest generalizing l with
    | nil => exact fun x hx => Or.inr hx
    | cons c rest ih =>
      intro x hx
      rcases ih _ x hx with hx | hx
      · exact Or.inl (List.mem_cons_of_mem c hx)
      · rcases Assoc.mem_set hx with rfl | hx
        · exact Or.inl List.mem_cons_self
        · exact Or.inr hx
  exact (hall [] candidates _ (Assoc.mem_of_get ht)).resolve_right List.not_mem_nil

theorem targets_keys {k : String} :
    k ∈ (targets d candidates).map Prod.fst ↔ k ∈ candidates.map d.key := by
  have hall : ∀ (l : List (String × Candidate)) (rest : List Candidate),
      k ∈ (rest.foldl (fun l c => Assoc.set l (d.key c) c) l).map Prod.fst ↔
        k ∈ rest.map d.key ∨ k ∈ l.map Prod.fst := by
    intro l rest
    induction rest generalizing l with
    | nil => exact (or_iff_right List.not_mem_nil).symm
    | cons c rest ih =>
      rw [List.foldl_cons, ih, Assoc.mem_keys_set, List.map_cons, List.mem_cons, or_left_comm,
        or_assoc]
  exact (hall [] candidates).trans (or_iff_left List.not_mem_nil)

theorem preferred_mem {context : Context σ δ} (hp : context.preferred d candidates = some c) :
    c ∈ candidates := by
  obtain ⟨k, -, hk⟩ := Option.bind_eq_some_iff.mp hp
  exact targets_mem hk

/-- A hint leaves the candidates as they are, or moves one of them to the front: one that is
available and has the least load, where any is available. -/
theorem preferAffinity_cases (h : Host) (d : Deployment) (s : State)
    (candidates : List Candidate) (context : Option (Context σ δ)) :
    preferAffinity h d s candidates context = candidates ∨
      ∃ c ∈ candidates, preferAffinity h d s candidates context = c :: candidates.filter (· ≠ c) ∧
        ∀ n ∈ candidates, h.available d n →
          h.available d c ∧ s.active d c ≤ s.active d n := by
  cases context with
  | none => exact Or.inl rfl
  | some context =>
    unfold preferAffinity
    dsimp only
    split
    case isTrue => exact Or.inl rfl
    case isFalse =>
      cases hp : context.preferred d candidates with
      | none => exact Or.inl rfl
      | some c =>
        dsimp only
        split
        case isTrue => exact Or.inl rfl
        case isFalse hmem =>
          by_cases hleast : ((if candidates.filter (h.available d) = [] then candidates
              else candidates.filter (h.available d)).any
                fun m => s.active d m < s.active d c) = true
          · exact Or.inl (if_pos hleast)
          · refine Or.inr ⟨c, preferred_mem hp, if_neg hleast, fun n hn hav => ?_⟩
            have hn' : n ∈ candidates.filter (h.available d) := List.mem_filter.mpr ⟨hn, hav⟩
            have hne : candidates.filter (h.available d) ≠ [] := List.ne_nil_of_mem hn'
            rw [if_neg hne] at hleast
            have hsame : c.member ∈ (candidates.filter (h.available d)).map Candidate.member :=
              not_not.mp fun hnot => hmem ⟨hne, hnot⟩
            obtain ⟨m, hm, hmc⟩ := List.mem_map.mp hsame
            refine ⟨?_, ?_⟩
            · have hmav := (List.mem_filter.mp hm).2
              unfold Host.available Host.groupAvailable at hmav ⊢
              rwa [hmc] at hmav
            · by_contra hlt
              refine hleast (List.any_eq_true.mpr ⟨n, hn', ?_⟩)
              exact decide_eq_true (Nat.lt_of_not_le hlt)

theorem preferAffinity_perm (hl : candidates.Nodup) :
    (preferAffinity h d s candidates context).Perm candidates := by
  obtain heq | ⟨c, hc, heq, -⟩ := preferAffinity_cases h d s candidates context
  · rw [heq]
  · rw [heq]
    exact cons_filter_perm hl hc

theorem route_perm (h : Host) (d : Deployment) (s : State) (context : Option (Context σ δ)) :
    (route h d s context).1.Perm d.routable := by
  have hperm := routeOrder_perm h d s
  exact (preferAffinity_perm (hperm.nodup_iff.mpr (routable_nodup d))).trans hperm

/-- The first of `_cluster_route_order` is available where any is, with the least load of these. -/
theorem routeOrder_head (hc : (routeOrder h d s).1.head? = some c) {n : Candidate}
    (hn : n ∈ d.routable) (hav : h.available d n) :
    h.available d c ∧ s.active d c ≤ s.active d n := by
  obtain ⟨available, hr⟩ | ⟨hr, hone⟩ := routeOrder_cases h d s
  · rw [hr, spread_head] at hc
    obtain ⟨hpool, hleast⟩ := View.balanced_least hc
    refine ⟨(View.mem_pool hpool).2 ⟨n, hn, hav⟩, ?_⟩
    exact hleast n (View.pool_of_available hn hav)
  · rw [hr] at hc
    obtain ⟨hd, rfl⟩ : d.routable = [c] ∧ n = c := by
      cases hl : d.routable with
      | nil =>
        rw [hl] at hn
        cases hn
      | cons x rest =>
        rw [hl] at hc hn hone
        cases hc
        obtain rfl : rest = [] := List.eq_nil_of_length_eq_zero (Nat.le_zero.mp
          (Nat.le_of_succ_le_succ hone))
        exact ⟨rfl, List.mem_singleton.mp hn⟩
    exact ⟨hav, Nat.le_refl _⟩

theorem head_least (hc : (route h d s context).1.head? = some c) {n : Candidate}
    (hn : n ∈ d.routable) (hav : h.available d n) :
    h.available d c ∧ s.active d c ≤ s.active d n := by
  unfold route at hc
  dsimp only at hc
  obtain heq | ⟨x, -, heq, hleast⟩ :=
    preferAffinity_cases h d (routeOrder h d s).2 (routeOrder h d s).1 context
  · rw [heq] at hc
    exact routeOrder_head hc hn hav
  · rw [heq] at hc
    cases hc
    have hx := hleast n ((routeOrder_perm h d s).mem_iff.mpr hn) hav
    unfold State.active at hx ⊢
    rwa [routeOrder_loads] at hx

/-! ## Selections without releases -/

/-- The loads of two available candidates differ by one at most. -/
def Even (h : Host) (d : Deployment) (s : State) : Prop :=
  ∀ a ∈ d.routable, ∀ b ∈ d.routable, h.available d a → h.available d b →
    s.active d a ≤ s.active d b + 1

/-- What a selection does to the loads. -/
theorem select_cases (h : Host) (d : Deployment) (s : State) (context : Option (Context σ δ)) :
    (select h d s context = (none, (routeOrder h d s).2) ∧ d.routable = []) ∨
      ∃ c, (route h d s context).1.head? = some c ∧
        select h d s context = (some c, (routeOrder h d s).2.acquire d c) := by
  have hperm := route_perm h d s context
  unfold select
  cases hr : route h d s context with
  | mk order s' =>
    rw [hr] at hperm
    have hs : s' = (routeOrder h d s).2 := (congrArg Prod.snd hr).symm
    cases order with
    | nil =>
      refine Or.inl ⟨by rw [hs], ?_⟩
      exact hperm.symm.eq_nil
    | cons c rest => exact Or.inr ⟨c, rfl, by rw [hs]⟩

theorem select_even (he : Even h d s) (context : Option (Context σ δ)) :
    Even h d (select h d s context).2 := by
  obtain ⟨hs, hnil⟩ | ⟨c, hc, hs⟩ := select_cases h d s context
  · intro a ha
    rw [hnil] at ha
    cases ha
  · rw [hs]
    intro a ha b hb hava havb
    have hold := he a ha b hb hava havb
    have hleast := (head_least hc hb havb).2
    unfold State.acquire State.active at *
    dsimp only
    rw [routeOrder_loads]
    by_cases hka : d.key a = d.key c
    · rw [hka, Function.update_self]
      by_cases hkb : d.key b = d.key c
      · rw [hkb, Function.update_self]
        omega
      · rw [Function.update_of_ne hkb]
        omega
    · rw [Function.update_of_ne hka]
      by_cases hkb : d.key b = d.key c
      · rw [hkb, Function.update_self]
        rw [hkb] at hold
        omega
      · rw [Function.update_of_ne hkb]
        exact hold

/-- The state after selections of requests that go on. -/
def selections (h : Host) (d : Deployment) (s : State) : List (Option (Context σ δ)) → State
  | [] => s
  | context :: rest => selections h d (select h d s context).2 rest

theorem selections_even (he : Even h d s) (contexts : List (Option (Context σ δ))) :
    Even h d (selections h d s contexts) := by
  induction contexts generalizing s with
  | nil => exact he
  | cons context rest ih => exact ih (select_even he context)

/-! ## Requests one after the other -/

/-- A request that ends before the next begins. -/
def serve (h : Host) (d : Deployment) (s : State) (context : Option (Context σ δ)) :
    Option Candidate × State :=
  match select h d s context with
  | (none, s') => (none, s')
  | (some c, s') => (some c, s'.release d c)

def served (h : Host) (d : Deployment) (s : State) :
    List (Option (Context σ δ)) → List (Option Candidate)
  | [] => []
  | context :: rest =>
    (serve h d s context).1 :: served h d (serve h d s context).2 rest

/-- The affinity table names none of the routable members for the request. -/
def Unhinted (d : Deployment) : Option (Context σ δ) → Prop
  | none => True
  | some context => context.lookup (d.routable.map d.key) = none

/-- The members that take the requests: the available ones, or all. -/
def ring (h : Host) (d : Deployment) : List Candidate :=
  if d.routable.filter (h.available d) = [] then d.routable
  else d.routable.filter (h.available d)

theorem preferAffinity_of_unhinted (hu : Unhinted d context) (hperm : candidates.Perm d.routable) :
    preferAffinity h d s candidates context = candidates := by
  cases context with
  | none => rfl
  | some context =>
    have hnone : context.preferred d candidates = none := by
      unfold Context.preferred Context.lookup
      have hkeys : ∀ k, k ∈ (targets d candidates).map Prod.fst ↔ k ∈ d.routable.map d.key :=
        fun k => targets_keys.trans (hperm.map d.key).mem_iff
      rw [Affinity.lookup_congr hkeys]
      unfold Unhinted Context.lookup at hu
      rw [hu]
      rfl
    unfold preferAffinity
    dsimp only
    rw [hnone]
    split <;> rfl

theorem acquire_release (s : State) (d : Deployment) (c : Candidate) :
    ((s.acquire d c).release d c).loads = s.loads := by
  funext k
  unfold State.acquire State.release
  dsimp only
  by_cases hk : k = d.key c
  · rw [hk, Function.update_self, Function.update_self, Nat.add_sub_cancel]
  · rw [Function.update_of_ne hk, Function.update_of_ne hk]

theorem serve_loads (h : Host) (d : Deployment) (s : State) (context : Option (Context σ δ)) :
    (serve h d s context).2.loads = s.loads ∧
      (serve h d s context).2.rotation = (routeOrder h d s).2.rotation ∧
      (serve h d s context).1 = (route h d s context).1.head? := by
  unfold serve
  obtain ⟨hs, hnil⟩ | ⟨c, hc, hs⟩ := select_cases h d s context
  · rw [hs]
    have hroute : (route h d s context).1 = [] := (hnil ▸ route_perm h d s context).eq_nil
    rw [hroute]
    exact ⟨routeOrder_loads h d s, rfl, rfl⟩
  · rw [hs]
    exact ⟨(acquire_release _ d c).trans (routeOrder_loads h d s), rfl, hc.symm⟩

/-- One request goes to the member of the ring that the rotation points to. -/
theorem serve_turn (hu : Unhinted d context)
    (hequal : ∀ a ∈ ring h d, ∀ b ∈ ring h d, s.active d a = s.active d b) :
    (serve h d s context).1 = (ring h d)[s.rotation (text d.id) % (ring h d).length]? ∧
      ((serve h d s context).2.rotation (text d.id) = s.rotation (text d.id) + 1 ∨
        (ring h d).length ≤ 1) := by
  obtain ⟨-, hrotation, hhead⟩ := serve_loads h d s context
  have hroute : (route h d s context).1 = (routeOrder h d s).1 :=
    preferAffinity_of_unhinted hu (routeOrder_perm h d s)
  rw [hhead, hroute, hrotation]
  obtain ⟨available, hr⟩ | ⟨hr, hone⟩ := routeOrder_cases h d s
  · rw [hr, spread_head, spread_state.2]
    exact ⟨View.balanced_of_equal hequal, Or.inl rfl⟩
  · rw [hr]
    have hring : ring h d = d.routable := by
      unfold ring
      cases hl : d.routable with
      | nil => rfl
      | cons x rest =>
        rw [hl] at hone
        obtain rfl : rest = [] := List.eq_nil_of_length_eq_zero (Nat.le_zero.mp
          (Nat.le_of_succ_le_succ hone))
        cases hx : h.available d x with
        | true => simp [hx]
        | false => simp [hx]
    rw [hring]
    refine ⟨?_, Or.inr hone⟩
    cases hl : d.routable with
    | nil => rfl
    | cons x rest =>
      rw [hl] at hone
      obtain rfl : rest = [] := List.eq_nil_of_length_eq_zero (Nat.le_zero.mp
        (Nat.le_of_succ_le_succ hone))
      rw [List.length_singleton, Nat.mod_one]
      rfl

theorem served_rotate {contexts : List (Option (Context σ δ))}
    (hu : ∀ context ∈ contexts, Unhinted d context)
    (hequal : ∀ a ∈ ring h d, ∀ b ∈ ring h d, s.active d a = s.active d b) {i : ℕ}
    (hi : i < contexts.length) :
    (served h d s contexts)[i]? =
      some ((ring h d)[(s.rotation (text d.id) + i) % (ring h d).length]?) := by
  induction contexts generalizing s i with
  | nil => exact absurd hi (Nat.not_lt_zero _)
  | cons context rest ih =>
    obtain ⟨hturn, hnext⟩ := serve_turn (hu context List.mem_cons_self) hequal
    obtain ⟨hloads, -, -⟩ := serve_loads h d s context
    cases i with
    | zero => exact congrArg some hturn
    | succ i =>
      have hequal' : ∀ a ∈ ring h d, ∀ b ∈ ring h d,
          (serve h d s context).2.active d a = (serve h d s context).2.active d b := by
        unfold State.active at hequal ⊢
        rwa [hloads]
      have hrest := ih (fun c hc => hu c (List.mem_cons_of_mem context hc)) hequal'
        (Nat.lt_of_succ_lt_succ hi)
      refine hrest.trans (congrArg some ?_)
      rcases hnext with hnext | hone
      · rw [hnext]
        congr 2
        omega
      · interval_cases hlen : (ring h d).length
        · have hnil : ring h d = [] := List.eq_nil_of_length_eq_zero hlen
          rw [hnil]
          rfl
        · rw [Nat.mod_one, Nat.mod_one]

/-- Who may serve, by mode. -/
theorem routable_spec (d : Deployment) :
    (d.mode = .replicated → d.routable.Perm d.candidates) ∧
      (d.mode = .groupedSharded →
        (d.routable.map Candidate.instance).Nodup ∧
          (∀ c ∈ d.routable, c ∈ d.candidates ∧ c.coordinates) ∧
          ∀ c ∈ d.candidates, c.coordinates →
            ∃ k ∈ d.routable, k.instance = c.instance) ∧
      (d.mode = .other →
        d.routable.length = min 1 d.candidates.length ∧
          ∀ c ∈ d.routable, c ∈ d.candidates ∧ ∀ m ∈ d.candidates, c.rank ≤ m.rank) := by
  unfold Deployment.routable
  refine ⟨fun hm => ?_, fun hm => ?_, fun hm => ?_⟩
  · rw [hm]
    exact sorted_perm d
  · rw [hm]
    obtain ⟨hnodup, hall, hcover⟩ := coordinators_spec d
    refine ⟨hnodup, fun c hc => ?_, fun c hc hrun => ?_⟩
    · exact ⟨(sorted_perm d).mem_iff.mp (hall c hc).1, (hall c hc).2⟩
    · exact hcover c ((sorted_perm d).mem_iff.mpr hc) hrun
  · rw [hm]
    refine ⟨by rw [List.length_take, (sorted_perm d).length_eq], fun c hc => ?_⟩
    have hcs : c ∈ d.sorted := List.mem_of_mem_take hc
    refine ⟨(sorted_perm d).mem_iff.mp hcs, fun m hmem => ?_⟩
    have hms := (sorted_perm d).mem_iff.mpr hmem
    have hsorted := sorted_pairwise d
    cases hl : d.sorted with
    | nil =>
      rw [hl] at hcs
      cases hcs
    | cons x rest =>
      rw [hl] at hc hms hsorted
      obtain rfl : c = x := List.mem_singleton.mp hc
      rcases List.mem_cons.mp hms with rfl | hms
      · exact le_refl _
      · exact (List.pairwise_cons.mp hsorted).1 m hms

/-- Every route has the routable members, least loaded first; selections keep the loads even, and
requests that no hint applies to go round. -/
theorem fair_routing (h : Host) (d : Deployment) :
    ((d.mode = .replicated → d.routable.Perm d.candidates) ∧
      (d.mode = .groupedSharded →
        (d.routable.map Candidate.instance).Nodup ∧
          (∀ c ∈ d.routable, c ∈ d.candidates ∧ c.coordinates = true) ∧
          ∀ c ∈ d.candidates, c.coordinates = true →
            ∃ k ∈ d.routable, k.instance = c.instance) ∧
      (d.mode = .other →
        d.routable.length = min 1 d.candidates.length ∧
          ∀ c ∈ d.routable, c ∈ d.candidates ∧ ∀ m ∈ d.candidates, c.rank ≤ m.rank)) ∧
    (∀ (s : State) (context : Option (Context σ δ)),
      (route h d s context).1.Perm d.routable ∧
        ((∃ n ∈ d.routable, h.available d n = true) →
          ∃ c, (route h d s context).1.head? = some c ∧ h.available d c = true ∧
            ∀ n ∈ d.routable, h.available d n = true → s.active d c ≤ s.active d n)) ∧
    (∀ (s : State) (contexts : List (Option (Context σ δ))), Even h d s →
      Even h d (selections h d s contexts)) ∧
    ∀ (s : State) (contexts : List (Option (Context σ δ))),
      (∀ context ∈ contexts, Unhinted d context) →
      (∀ a ∈ ring h d, ∀ b ∈ ring h d, s.active d a = s.active d b) →
      ∀ i < contexts.length, (served h d s contexts)[i]? =
        some ((ring h d)[(s.rotation (text d.id) + i) % (ring h d).length]?) := by
  refine ⟨routable_spec d, fun s context => ⟨route_perm h d s context, ?_⟩,
    fun s contexts he => selections_even he contexts,
    fun s contexts hu hequal i hi => served_rotate hu hequal hi⟩
  rintro ⟨n, hn, hav⟩
  cases hr : (route h d s context).1.head? with
  | none =>
    have hnil := List.head?_eq_none_iff.mp hr
    have hmem := (route_perm h d s context).mem_iff.mpr hn
    rw [hnil] at hmem
    cases hmem
  | some c =>
    refine ⟨c, rfl, (head_least hr hn hav).1, fun m hm hmav => (head_least hr hm hmav).2⟩

end Hint

/-! ## Deployments -/

def quiet : Host := ⟨id, fun _ => none⟩

def idle : State := ⟨fun _ => 0, fun _ => 0⟩

def replica (rank : ℤ) (name : String) : Member :=
  ⟨some rank, none, some name, none, none, some "running", none, none⟩

def pair : Deployment := ⟨some "d", .replicated, [replica 0 "a", replica 1 "b"]⟩

def sharded (ranks : List ℤ) : Deployment :=
  ⟨some "d", .other, ranks.map fun r => replica r (toString r)⟩

/-- A request whose conversation the first replica has served. -/
def followUp : Context ℕ ℕ where
  settings := ⟨1800, 4096⟩
  table := (Table.empty.remember ⟨1800, 4096⟩ 0 [(5, 0)] "d:a" 0 0).table
  scope := 0
  keys := [(5, 9)]
  now := 1
  touched := 1

/-- Four requests go to the replicas in turn. -/
theorem fair_routing_turns :
    served quiet pair idle ([none, none, none, none] : List (Option (Context ℕ ℕ))) =
      [some ⟨0, replica 0 "a"⟩, some ⟨1, replica 1 "b"⟩, some ⟨0, replica 0 "a"⟩,
        some ⟨1, replica 1 "b"⟩] := by
  have hturns := (fair_routing (σ := ℕ) (δ := ℕ) quiet pair).2.2.2 idle [none, none, none, none]
    (by simp [Unhinted]) (fun _ _ _ _ => rfl)
  have hring : ring quiet pair = [⟨0, replica 0 "a"⟩, ⟨1, replica 1 "b"⟩] := by decide +kernel
  rw [hring] at hturns
  refine List.ext_getElem? fun i => ?_
  by_cases hi : i < 4
  · rw [hturns i hi]
    interval_cases i <;> rfl
  · rw [List.getElem?_eq_none (by simpa [served] using hi),
      List.getElem?_eq_none (by simpa using hi)]

/-- The follow-up goes to the replica it names, out of turn; loads that differ stay apart for a
while; the engine's other rank takes nothing; and a first rank that is not 0 serves. -/
theorem hinted_turn :
    (ring quiet pair = [⟨0, replica 0 "a"⟩, ⟨1, replica 1 "b"⟩] ∧
      served quiet pair idle [none, some followUp] =
        [some ⟨0, replica 0 "a"⟩, some ⟨0, replica 0 "a"⟩]) ∧
    (selections (σ := ℕ) (δ := ℕ) quiet (sharded [0, 1]) idle [none, none]).active
        (sharded [0, 1]) ⟨0, replica 0 "0"⟩ = 2 ∧
      (selections (σ := ℕ) (δ := ℕ) quiet (sharded [0, 1]) idle [none, none]).active
        (sharded [0, 1]) ⟨1, replica 1 "1"⟩ = 0 ∧
    (selections (σ := ℕ) (δ := ℕ) quiet pair ⟨fun k => if k = "d:a" then 5 else 0, fun _ => 0⟩
        [none]).active pair ⟨0, replica 0 "a"⟩ = 5 ∧
      (selections (σ := ℕ) (δ := ℕ) quiet pair ⟨fun k => if k = "d:a" then 5 else 0, fun _ => 0⟩
        [none]).active pair ⟨1, replica 1 "b"⟩ = 1 ∧
    (route (σ := ℕ) (δ := ℕ) quiet (sharded [1]) idle none).1 = [⟨0, replica 1 "1"⟩] := by
  refine ⟨⟨?_, ?_⟩, ?_, ?_, ?_, ?_, ?_⟩ <;> decide +kernel

end SparkDeck.Balance
