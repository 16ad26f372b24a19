import Mathlib.Algebra.BigOperators.Group.Finset.Basic
import Mathlib.Algebra.Order.Ring.Rat
import SparkDeck.Lib.Transition

/-!
# The download budget of a launch

`update_settings`, `apply_bandwidth_cap_live`, `_notify_agents_bandwidth_loop`,
`_cluster_image_pull_share_mbps` and `_launch_phase_bandwidth` (`manager.py`), with the rate files of
`_register_download_rate_file` (`sparkdeck/virtual_nas.py`) and `throttled_image_pull_events`
(`sparkdeck/throttled_image_pull.py`), which compute the same.

* Caps are in megabits a second and rates in bytes a second, over the rationals. A cap has passed
  `parse_bandwidth_mbps` when it is saved.
* `update_settings` reads the old cap, waits for the lock, saves (`lock`), may wait for
  `virtual_nas.stop`, and then broadcasts if the cap it read differs (`apply`). Any number of calls
  is under way, and one can raise after it has set the cap (`abort`).
* A broadcast goes to the agents one after another. A request is answered, fails (`skip`), or times
  out here and may still be handled there, later (`lose`, `late`).
* A member of the launch accepts its payload, and then resolves a rate, registers a rate file and
  finishes, for one transfer after another: a runtime image, and then weights.
* `last`, `broadcasts`, the indices of broadcasts, `missed` and `heard` are not state of the program:
  they say which broadcast a node has heard.
-/

namespace SparkDeck.Bandwidth

/-- `MAX_BANDWIDTH_MBPS` -/
def maxBandwidth : ℚ := 1000000

/-- What `parse_bandwidth_mbps` accepts. -/
def Parses (mbps : ℚ) : Prop := 0 ≤ mbps ∧ mbps ≤ maxBandwidth

instance (mbps : ℚ) : Decidable (Parses mbps) := inferInstanceAs (Decidable (_ ∧ _))

/-- `bandwidth_bytes_per_second` -/
def bytes (mbps : ℚ) : ℚ := mbps * 1000000 / 8

/-- What is stamped on the payload of a member. -/
structure Stamp where
  /-- `image_pull_bandwidth_mbps` -/
  share : ℚ
  /-- `cluster_pull_bandwidth_mbps` -/
  cluster : ℚ
  /-- `image_pull_fanout_width` -/
  width : ℕ

/-- `_cluster_image_pull_share_mbps` -/
def pullShare (cap : ℚ) (width : ℕ) : ℚ := if cap ≤ 0 then 0 else cap / max 1 width

/-- `_launch_phase_bandwidth`: the share and the cap for a new phase. -/
def launchPhase (live : Option ℚ) (stamp : Stamp) : ℚ × ℚ :=
  if stamp.width = 0 then (stamp.share, stamp.cluster)
  else
    let effective := max 0 (live.getD stamp.cluster)
    (effective / max 1 stamp.width, effective)

/-- The share of the cluster that a rate file is registered with. -/
def shareFactor (rate cluster : ℚ) : ℚ :=
  if 0 < cluster then max (min (rate / cluster) 1) (1 / 1000000000) else 1

inductive Transfer where
  | none
  /-- The phase has its share and cap, and waits for what is before it (a slot, a lock, a child). -/
  | resolved (share cluster : ℚ)
  /-- The rate file is registered, and holds `rate`. -/
  | active (rate factor : ℚ)
  | uncapped
  deriving DecidableEq

/-- `_register_download_rate_file` -/
def register (share cluster : ℚ) : Transfer :=
  if bytes share ≤ 0 then .uncapped
  else .active (bytes share) (shareFactor (bytes share) (bytes cluster))

/-- `apply_download_bandwidth_cap` and `apply_bandwidth_cap` -/
def Transfer.reRate (mbps : ℚ) : Transfer → Transfer
  | active _ factor => active (bytes mbps * factor) factor
  | t => t

def Transfer.isActive : Transfer → Bool
  | active _ _ => true
  | _ => false

/-- The cap that a phase has resolved. -/
def Transfer.cluster? : Transfer → Option ℚ
  | resolved _ cluster => some cluster
  | _ => Option.none

/-- The rate in force of a capped transfer. -/
def Transfer.rate : Transfer → ℚ
  | active rate _ => rate
  | _ => 0

structure Broadcast where
  cap : ℚ
  index : ℕ

structure Node where
  /-- `_live_bandwidth_cap_mbps` -/
  live : Option ℚ
  /-- The newest broadcast the node has heard; there is none before the first. -/
  heard : ℕ
  accepted : Bool
  transfer : Transfer

/-- `apply_bandwidth_cap_live` -/
def Node.hear (n : Node) (b : Broadcast) : Node :=
  { n with live := some b.cap, heard := max n.heard b.index, transfer := n.transfer.reRate b.cap }

/-- A call of `update_settings`: the cap it saves, and the one it has read. -/
structure Save where
  value : ℚ
  old : ℚ

variable {N : Type*} [DecidableEq N]

structure Launch (N : Type*) where
  stamp : Stamp
  targets : Finset N
  /-- The last broadcast before the dispatch. -/
  since : ℕ

structure State (N : Type*) where
  /-- `max_download_bandwidth_mbps` -/
  cap : ℚ
  /-- The calls that have not saved. -/
  begun : List Save
  /-- The calls that have saved and not returned, as they saved. -/
  saved : List Save
  /-- The cap of the last broadcast. -/
  last : ℚ
  broadcasts : ℕ
  /-- `_bandwidth_notify_pending` -/
  pending : Option Broadcast
  /-- What the loop sends, and to whom it has not sent it. -/
  sending : Option (Broadcast × List N)
  /-- The requests that have timed out. -/
  strays : List (N × Broadcast)
  /-- The agents that the broadcast was not delivered to. -/
  missed : N → Bool
  node : N → Node
  launch : Option (Launch N)

inductive Act (N : Type*) where
  | begin (value : ℚ)
  | lock (j : ℕ)
  | apply (j : ℕ)
  /-- The call raises after it has set the cap. -/
  | abort (j : ℕ)
  | take
  | deliver
  | skip
  | lose
  | sent
  | late (j : ℕ)
  | dispatch (targets : Finset N)
  | accept (i : N)
  | resolve (i : N)
  | register (i : N)
  | finish (i : N)

variable (s : State N)

def State.put (i : N) (n : Node) : State N := { s with node := Function.update s.node i n }

def State.hear (i : N) (b : Broadcast) : State N := s.put i ((s.node i).hear b)

/-- `apply_bandwidth_cap_live`, and `_schedule_agents_bandwidth_notify` -/
def State.schedule (here : N) (value : ℚ) : State N :=
  let b : Broadcast := ⟨value, s.broadcasts + 1⟩
  { s.hear here b with last := value, broadcasts := s.broadcasts + 1, pending := some b }

def State.transfer (i : N) (t : Transfer) : State N := s.put i { s.node i with transfer := t }

/-- The loop goes on to the next agent. -/
def State.goOn (b : Broadcast) (rest : List N) : State N := { s with sending := some (b, rest) }

/-- The agent that is next, and what it is sent. -/
def State.receiver : Option (N × Broadcast) :=
  match s.sending with
  | some (b, i :: _) => some (i, b)
  | _ => none

def State.miss (i : N) : State N := { s with missed := Function.update s.missed i true }

/-- The payloads of a launch, under the cap of the moment. -/
def State.payload (targets : Finset N) : Launch N :=
  ⟨⟨pullShare s.cap targets.card, max 0 s.cap, targets.card⟩, targets, s.broadcasts⟩

/-- `here` is the controller, and `nodes` are the nodes of the registry. -/
def step (here : N) (nodes : List N) : Act N → Option (State N)
  | .begin value => if Parses value then some { s with begun := s.begun ++ [⟨value, s.cap⟩] } else none
  | .lock j =>
    match s.begun[j]? with
    | some c =>
      -- after the dispatch the changes are to positive caps
      if s.launch.isSome ∧ c.value ≤ 0 then none
      else some { s with cap := c.value, begun := s.begun.eraseIdx j, saved := s.saved ++ [c] }
    | none => none
  | .apply j =>
    match s.saved[j]? with
    | some c =>
      let t := { s with saved := s.saved.eraseIdx j }
      some (if c.value = c.old then t else t.schedule here c.value)
    | none => none
  | .abort j => if j < s.saved.length then some { s with saved := s.saved.eraseIdx j } else none
  | .take =>
    match s.pending, s.sending with
    | some b, none =>
      some { s with pending := none, sending := some (b, nodes), missed := fun _ => false }
    | _, _ => none
  | .deliver =>
    match s.sending with
    | some (b, i :: rest) => if i = here then none else some ((s.hear i b).goOn b rest)
    | _ => none
  | .skip =>
    match s.sending with
    | some (b, i :: rest) => some ((s.miss i).goOn b rest)
    | _ => none
  | .lose =>
    match s.sending with
    | some (b, i :: rest) =>
      if i = here then none
      else some { (s.miss i).goOn b rest with strays := s.strays ++ [(i, b)] }
    | _ => none
  | .sent =>
    match s.sending with
    | some (_, []) => some { s with sending := none }
    | _ => none
  | .late j =>
    match s.strays[j]? with
    | some (i, b) => some { s.hear i b with strays := s.strays.eraseIdx j }
    | none => none
  | .dispatch targets =>
    if s.launch.isNone ∧ 0 < s.cap ∧ targets.Nonempty then
      some { s with launch := some (s.payload targets) }
    else none
  | .accept i =>
    match s.launch with
    | some l => if i ∈ l.targets then some (s.put i { s.node i with accepted := true }) else none
    | none => none
  | .resolve i =>
    match s.launch with
    | some l =>
      if (s.node i).accepted ∧ (s.node i).transfer = .none then
        let phase := launchPhase (s.node i).live l.stamp
        some (s.transfer i (.resolved phase.1 phase.2))
      else none
    | none => none
  | .register i =>
    match (s.node i).transfer with
    | .resolved share cluster => some (s.transfer i (Bandwidth.register share cluster))
    | _ => none
  | .finish i => if (s.node i).transfer = .none then none else some (s.transfer i .none)

/-- A node may have heard of a cap in another session, and has no transfer of the launch. -/
def init (cap : ℚ) (live : N → Option ℚ) : State N :=
  ⟨cap, [], [], cap, 0, none, none, [], fun _ => false, fun i => ⟨live i, 0, false, .none⟩, none⟩

/-! ## What holds in a run -/

/-- Once every member has heard the last broadcast, the rates add up to at most the cap. -/
def Within : Prop :=
  ∀ l : Launch N, s.launch = some l → s.saved = [] →
    (∀ i ∈ l.targets, (s.node i).heard = s.broadcasts) →
      ∑ i ∈ l.targets, (s.node i).transfer.rate ≤ bytes s.cap

/-- A transfer uses the share `share`. -/
def Transfer.Uses (share : ℚ) : Transfer → Prop
  | none => True
  | resolved share' _ => share' = share
  | active rate _ => rate = bytes share
  | uncapped => False

/-- A member that has heard no broadcast newer than the launch uses the share it was sent. -/
def Stamped : Prop :=
  ∀ l : Launch N, s.launch = some l → ∀ i ∈ l.targets, (s.node i).heard ≤ l.since →
    (s.node i).transfer.Uses l.stamp.share

/-- After the last broadcast, every agent that it was delivered to has the cap that was saved last. -/
def Latest (here : N) (nodes : List N) : Prop :=
  0 < s.broadcasts → s.saved = [] → s.pending = none → s.sending = none →
    ∀ i ∈ nodes, i ≠ here → s.missed i = false → (s.node i).live = some s.cap

/-- A broadcast that is older than the launch changes no rate of it. -/
def Timely (i : N) (b : Broadcast) : Prop :=
  ∀ l ∈ s.launch, b.index ≤ l.since → (s.node i).transfer.isActive →
    b.cap = l.stamp.cluster

/-- A save follows the one it has read, and is broadcast in the order of the saves; the launch is
not so wide that its shares are rounded; a member resolves its first share from what it was sent;
and none registers a rate that is over its share of a newer cap it has heard. -/
def Orderly : Act N → Prop
  | .lock j => ∀ c ∈ s.begun[j]?, c.old = s.cap
  | .apply j => j = 0
  | .abort j => j = 0 ∧ ∀ c ∈ s.saved[j]?, c.value = c.old
  | .deliver => ∀ x ∈ s.receiver, Timely s x.1 x.2
  | .late j => ∀ x ∈ s.strays[j]?, (s.node x.1).heard ≤ x.2.index ∧ Timely s x.1 x.2
  | .dispatch targets => targets.card ≤ 1000000000
  | .resolve i => ∀ l ∈ s.launch, (s.node i).heard ≤ l.since →
      ∀ cap ∈ (s.node i).live, cap = l.stamp.cluster
  | .register i => ∀ l ∈ s.launch, ∀ cluster ∈ (s.node i).transfer.cluster?,
      l.since < (s.node i).heard → cluster ≤ (s.node i).live.getD l.stamp.cluster
  | _ => True

end SparkDeck.Bandwidth
