import SparkDeck.Lib.Table
import SparkDeck.Update.Rollout

/-!
# A rollout tells the truth

What a node says it has come to is on file before anything is concluded from it: `Fair` is what every
step keeps of the phases in a record, and `TaskOk` is where a task stands, by its program counter:
before node `i` the preflights are done, and later what is not decided is on the list of the task.
`truthful` is the result for runs that meet `Plain`; `believed` is a run that does not, in which a
worker says that it is done and serves another revision.
-/

namespace SparkDeck.Update

variable {r : Record} {i j : ℕ} {n m : Node} {f : Node → Node} {e : String}

theorem isFinal_of_isFailed {p : Phase} (h : p.isFailed) : p.isFinal := by
  rw [Phase.isFinal, h, Bool.true_or]

theorem not_isCompleted_of_isFailed {p : Phase} (h : p.isFailed) :
    p.isCompleted = false := by
  cases p <;> first | rfl | cases h

theorem modify_cases (h : (r.modify i f).nodes[j]? = some m) :
    ∃ n, r.nodes[j]? = some n ∧ (j = i ∧ m = f n ∨ j ≠ i ∧ m = n) := by
  change (r.nodes.modify i f)[j]? = some m at h
  rw [List.getElem?_modify] at h
  obtain ⟨n, hn, he⟩ := Option.map_eq_some_iff.mp h
  refine ⟨n, hn, ?_⟩
  split at he
  case isTrue hij => exact Or.inl ⟨hij.symm, he.symm⟩
  case isFalse hij => exact Or.inr ⟨fun h => hij h.symm, he.symm⟩

@[simp] theorem finish_nodes : r.finish.nodes = r.nodes := by
  unfold Record.finish
  dsimp only
  split <;> rfl

@[simp] theorem finish_target : r.finish.target = r.target := by
  unfold Record.finish
  dsimp only
  split <;> rfl

@[simp] theorem finish_active : r.finish.active = false := by
  unfold Record.finish
  dsimp only
  split <;> rfl

theorem finish_phase_ne (p : JobPhase) (hs : p ≠ .succeeded) (hp : p ≠ .partly)
    (hf : p ≠ .failed) : r.finish.phase ≠ p := by
  unfold Record.finish
  dsimp only
  split
  case isTrue => exact Ne.symm hs
  case isFalse =>
    split
    case isTrue => exact Ne.symm hf
    case isFalse => exact Ne.symm hp

/-- A rollout succeeds if no node is a failure. -/
theorem failures_of_finish (h : r.finish.phase = .succeeded) : ∀ n ∈ r.nodes, n.isFailure = false := by
  unfold Record.finish at h
  dsimp only at h
  split at h
  case isTrue hnil =>
    intro n hn
    have hnot := List.filter_eq_nil_iff.mp hnil n hn
    exact Bool.eq_false_iff.mpr hnot
  case isFalse =>
    split at h <;> cases h

theorem modifyLocal_nil (h : r.nodes = []) : r.modifyLocal f = r := by
  unfold Record.modifyLocal
  rw [h]
  rfl

theorem interrupt_isFinal : (n.interrupt e).phase.isFinal := by
  unfold Node.interrupt
  split
  case isTrue h => exact h
  case isFalse => rfl

theorem interrupt_isCompleted (h : (n.interrupt e).phase.isCompleted) : n.interrupt e = n := by
  unfold Node.interrupt at h ⊢
  split
  case isTrue => rfl
  case isFalse hn =>
    rw [if_neg hn] at h
    cases h

@[simp] theorem interrupt_local : (n.interrupt e).local = n.local := by
  unfold Node.interrupt
  split <;> rfl

end SparkDeck.Update

namespace SparkDeck.Update.Rollout

open Transition

variable {s s' : State} {r : Record} {i j k : ℕ} {n m : Node} {t t' : Task} {e : String}
  {planned : List (Option ℕ)} {log log' : List Event} {pc : Pc}

/-! ## Records -/

/-- The local node is the first. -/
def Shape (r : Record) : Prop :=
  r.nodes ≠ [] ∧ ∀ (i : ℕ) (n : Node), r.nodes[i]? = some n → (n.local ↔ i = 0)

/-- A node that is done was at the target, or has said so. -/
def Fair (planned : List (Option ℕ)) (log : List Event) (r : Record) : Prop :=
  ∀ (i : ℕ) (n : Node), r.nodes[i]? = some n → n.phase.isCompleted →
    planned[i]? = some r.target ∨ .reported i r.target ∈ log

/-- Every node has a verdict. -/
def Decided (r : Record) : Prop := ∀ (i : ℕ) (n : Node), r.nodes[i]? = some n →
  n.phase.isFinal

theorem Fair.mono (h : Fair planned log r) (hlog : log ⊆ log') : Fair planned log' r := by
  intro i n hn hc
  exact (h i n hn hc).imp_right fun hm => hlog hm

/-- One node is changed. -/
theorem Fair.modify (h : Fair planned log r) {f : Node → Node}
    (hf : ∀ n, r.nodes[i]? = some n → (f n).phase.isCompleted →
      n.phase.isCompleted ∨ planned[i]? = some r.target ∨ .reported i r.target ∈ log) :
    Fair planned log (r.modify i f) := by
  intro j m hm hc
  obtain ⟨n, hn, ⟨rfl, rfl⟩ | ⟨-, rfl⟩⟩ := modify_cases hm
  · rcases hf n hn hc with hn' | hdone
    · exact h j n hn hn'
    · exact hdone
  · exact h j m hn hc

theorem Shape.modify (h : Shape r) {f : Node → Node} (hf : ∀ n, (f n).local = n.local) :
    Shape (r.modify i f) := by
  refine ⟨fun he => h.1 ?_, ?_⟩
  · have hlen := congrArg List.length he
    change (r.nodes.modify i f).length = 0 at hlen
    rw [List.length_modify] at hlen
    exact List.length_eq_zero_iff.mp hlen
  · intro j m hm
    obtain ⟨n, hn, ⟨-, rfl⟩ | ⟨-, rfl⟩⟩ := modify_cases hm
    · rw [hf]
      exact h.2 j n hn
    · exact h.2 j m hn

/-- Every node is changed. -/
theorem Shape.map (h : Shape r) {f : Node → Node} (hf : ∀ n, (f n).local = n.local)
    {r' : Record} (hr : r'.nodes = r.nodes.map f) : Shape r' := by
  refine ⟨fun he => h.1 ?_, ?_⟩
  · rw [hr] at he
    exact List.map_eq_nil_iff.mp he
  · intro j m hm
    rw [hr, List.getElem?_map] at hm
    obtain ⟨n, hn, rfl⟩ := Option.map_eq_some_iff.mp hm
    rw [hf]
    exact h.2 j n hn

theorem Shape.findIdx (h : Shape r) : r.nodes.findIdx? (·.local) = some 0 := by
  obtain ⟨n, rest, hn⟩ := List.exists_cons_of_ne_nil h.1
  have hl : n.local := (h.2 0 n (by rw [hn]; rfl)).mpr rfl
  rw [hn, List.findIdx?_cons, hl]
  rfl

theorem Shape.modifyLocal (h : Shape r) (f : Node → Node) : r.modifyLocal f = r.modify 0 f := by
  unfold Record.modifyLocal
  rw [h.findIdx]

/-- All but the local node have a verdict. -/
def Workers (r : Record) : Prop := ∀ (i : ℕ) (n : Node), r.nodes[i]? = some n → i ≠ 0 →
  n.phase.isFinal

theorem Workers.decided (h : Workers r) {f : Node → Node} (hf : ∀ n, r.nodes[0]? = some n →
    (f n).phase.isFinal) : Decided (r.modify 0 f) := by
  intro j m hm
  obtain ⟨n, hn, ⟨rfl, rfl⟩ | ⟨hj, rfl⟩⟩ := modify_cases hm
  · exact hf n hn
  · exact h j m hn hj

/-- What is on file. -/
structure DiskOk (planned : List (Option ℕ)) (log : List Event) (r : Record) : Prop where
  shape : r.nodes = [] ∨ Shape r
  fair : Fair planned log r
  workers : r.phase = .updatingController → Workers r
  ended : r.active = false → Decided r
  succeeded : r.phase = .succeeded → r.active = false ∧ ∀ n ∈ r.nodes, n.isFailure = false

theorem DiskOk.mono (h : DiskOk planned log r) (hlog : log ⊆ log') : DiskOk planned log' r :=
  { h with fair := h.fair.mono hlog }

theorem DiskOk.finish (hshape : r.nodes = [] ∨ Shape r) (hfair : Fair planned log r)
    (hdone : Decided r) : DiskOk planned log r.finish where
  shape := by
    unfold Shape
    rw [finish_nodes]
    exact hshape
  fair := by
    unfold Fair
    rw [finish_nodes, finish_target]
    exact hfair
  workers hp := absurd hp (finish_phase_ne _ (by decide) (by decide) (by decide))
  ended _ := by
    unfold Decided
    rw [finish_nodes]
    exact hdone
  succeeded hp := by
    rw [finish_nodes]
    exact ⟨finish_active, failures_of_finish hp⟩

theorem DiskOk.abort (hshape : r.nodes = [] ∨ Shape r) (hfair : Fair planned log r) (e : String) :
    DiskOk planned log (r.abort e) := by
  refine DiskOk.finish ?_ ?_ ?_
  · refine hshape.imp (fun h => ?_) fun h => h.map (fun _ => interrupt_local) rfl
    rw [h]
    rfl
  · intro i m hm hc
    rw [List.getElem?_map] at hm
    obtain ⟨n, hn, rfl⟩ := Option.map_eq_some_iff.mp hm
    rw [interrupt_isCompleted hc] at hc
    exact hfair i n hn hc
  · intro i m hm
    rw [List.getElem?_map] at hm
    obtain ⟨n, -, rfl⟩ := Option.map_eq_some_iff.mp hm
    exact interrupt_isFinal

/-! ## Tasks -/

/-- The workers that wait for their turn. -/
def Pc.todo : Pc → List ℕ
  | .transfers todo => todo
  | .next todo => todo
  | .request i todo => i :: todo
  | .poll i todo => i :: todo
  | .judge i todo _ => i :: todo
  | _ => []

/-- The phase of the local node, unless it is decided. -/
def Pc.own : Pc → Phase
  | .transfers _ => .pendingTransfers
  | .startLocal => .updating
  | _ => .ready

/-- The node the preflights have got to. -/
def Pc.planning : Pc → Option ℕ
  | .created => some 0
  | .plan i => some i
  | .preflight i => some i
  | _ => none

/-- The preflights before node `i` are done, and no other. -/
structure Planning (planned : List (Option ℕ)) (log : List Event) (r : Record) (i : ℕ) :
    Prop where
  before : ∀ (j : ℕ) (n : Node), r.nodes[j]? = some n → j < i →
    n.phase = .ready ∨ n.phase.isFinal
  ready : ∀ (j : ℕ) (n : Node), r.nodes[j]? = some n → n.phase = .ready → .ready j ∈ log
  planned : ∀ (j : ℕ) (n : Node), r.nodes[j]? = some n → i ≤ j → planned[j]? = some n.current
  fresh : ∀ j, i ≤ j → Event.ready j ∉ log ∧ Event.refused j ∉ log

structure TaskOk (planned : List (Option ℕ)) (log : List Event) (t : Task) : Prop where
  shape : Shape t.record
  fair : Fair planned log t.record
  active : t.record.active
  unfinished : t.record.phase ≠ .succeeded
  early : t.pc ≠ .startLocal → t.record.phase ≠ .updatingController
  planning : ∀ i, t.pc.planning = some i → Planning planned log t.record i
  decided : t.pc.planning = none → ∀ (j : ℕ) (n : Node), t.record.nodes[j]? = some n →
    n.phase.isFinal ∨ j ∈ t.pc.todo ∨ j = 0 ∧ n.phase = t.pc.own
  todo : ∀ j ∈ t.pc.todo, .ready j ∈ log
  judged : ∀ i todo st, t.pc = .judge i todo st → ∀ n, t.record.nodes[i]? = some n →
    n.phase = st.phase

theorem TaskOk.mono_log (h : TaskOk planned log t) (hsub : log ⊆ log')
    (hready : ∀ i, Event.ready i ∈ log' → Event.ready i ∈ log)
    (hrefused : ∀ i, Event.refused i ∈ log' → Event.refused i ∈ log) : TaskOk planned log' t :=
  { h with
    fair := h.fair.mono hsub
    planning i hi := by
      have hp := h.planning i hi
      refine ⟨hp.before, fun j n hn hr => hsub (hp.ready j n hn hr), hp.planned, fun j hj => ?_⟩
      obtain ⟨hnr, hnq⟩ := hp.fresh j hj
      exact ⟨fun hm => hnr (hready j hm), fun hm => hnq (hrefused j hm)⟩
    todo j hj := hsub (h.todo j hj) }

theorem TaskOk.disk (h : TaskOk planned log t) (hw : t.pc = .startLocal → Workers t.record) :
    DiskOk planned log t.record where
  shape := Or.inr h.shape
  fair := h.fair
  workers hp := by
    by_cases hpc : t.pc = .startLocal
    · exact hw hpc
    · exact absurd hp (h.early hpc)
  ended hp := by
    rw [h.active] at hp
    cases hp
  succeeded hp := absurd hp h.unfinished

structure Logged (log : List Event) : Prop where
  asked : ∀ i : ℕ, Event.asked i ∈ log → Event.ready i ∈ log
  refused : ∀ i : ℕ, Event.refused i ∈ log → Event.ready i ∉ log
  last : ∀ nodes : List Node, .controller nodes ∈ log → ∀ n ∈ nodes, n.local = false →
    n.phase.isFinal
  ends : ∀ after : Record, .read false true after ∈ log →
    after.active = false ∧ ∀ n ∈ after.nodes, n.phase.isFinal = true

structure Inv (s : State) : Prop where
  disk : DiskOk s.planned s.log s.disk
  logged : Logged s.log
  tasks : ∀ (k : ℕ) (t : Task), s.tasks[k]? = some t → t.live →
    TaskOk s.planned s.log t ∧ k + 1 = s.tasks.length ∧ s.disk.active
  starts : ∀ k : ℕ, s.starts[k]? = some .checking → s.holder = some k ∧ s.disk.active = false

theorem Inv.truth (h : Inv s) : Truthful s where
  succeeded hp i n hn := by
    have hmem := List.mem_of_getElem? hn
    obtain ⟨hact, hall⟩ := h.disk.succeeded hp
    have hfinal := h.disk.ended hact i n hn
    have hnot := hall n hmem
    rw [Node.isFailure, Bool.or_eq_false_iff] at hnot
    rw [Phase.isFinal, hnot.1, Bool.false_or] at hfinal
    exact h.disk.fair i n hn hfinal
  failures hp := (h.disk.succeeded hp).2
  refused i hr ha := h.logged.refused i hr (h.logged.asked i ha)
  last nodes hc i n hn hl _ := h.logged.last nodes hc n (List.mem_of_getElem? hn) hl
  one i j t u hi hj ht hu := by
    have hti := (h.tasks i t hi ht).2.1
    have huj := (h.tasks j u hj hu).2.1
    omega
  ends := h.logged.ends

/-! ## A task goes on -/

/-- Task `k` has a new record or place, and what it knew it still knows. -/
theorem Inv.move (h : Inv s) (ht : s.tasks[k]? = some t) (hl : t.live)
    (hstarts : s'.starts = s.starts) (htasks : s'.tasks = s.tasks.set k t')
    (hlogged : Logged s'.log) (hdisk : DiskOk s'.planned s'.log s'.disk)
    (hnew : t'.live → TaskOk s'.planned s'.log t' ∧ s'.disk.active) : Inv s' where
  disk := hdisk
  logged := hlogged
  tasks j u hj hu := by
    have hk := (h.tasks k t ht hl).2.1
    rw [htasks] at hj ⊢
    rw [List.length_set]
    rcases Table.set_cases hj with ⟨rfl, rfl⟩ | ⟨hne, hj⟩
    · exact ⟨(hnew hu).1, hk, (hnew hu).2⟩
    · have hother := (h.tasks j u hj hu).2.1
      omega
  starts j hj := by
    rw [hstarts] at hj
    have hidle := (h.starts j hj).2
    rw [(h.tasks k t ht hl).2.2] at hidle
    cases hidle

theorem Inv.put (h : Inv s) (ht : s.tasks[k]? = some t) (hl : t.live) {pc : Pc}
    (hok : pc ≠ .over → TaskOk s.planned s.log ⟨r, pc⟩) : Inv (s.put k r pc) := by
  refine h.move ht hl rfl rfl h.logged h.disk fun hlive => ⟨hok ?_, (h.tasks k t ht hl).2.2⟩
  exact of_decide_eq_true hlive

/-- The task writes what it has. -/
theorem Inv.save (h : Inv s) (ht : s.tasks[k]? = some t) (hl : t.live) {pc : Pc}
    (hlogged : Logged log) (hok : TaskOk s.planned log ⟨r, pc⟩)
    (hw : pc = .startLocal → Workers r) : Inv { s.save k r pc with log := log } :=
  h.move ht hl rfl rfl hlogged (hok.disk hw) fun _ => ⟨hok, hok.active⟩

theorem Inv.finish (h : Inv s) (ht : s.tasks[k]? = some t) (hl : t.live)
    (hlogged : Logged log) (hshape : Shape r) (hfair : Fair s.planned log r) (hdone : Decided r) :
    Inv { s.finish k r with log := log } := by
  refine h.move ht hl rfl rfl hlogged (DiskOk.finish (Or.inr hshape) hfair hdone) ?_
  intro hlive
  cases hlive

/-! ## What is noted -/

theorem Logged.cons (h : Logged log) {e : Event}
    (hasked : ∀ i, e = .asked i → Event.ready i ∈ log)
    (hrefused : ∀ i, e = .refused i → Event.ready i ∉ log)
    (hready : ∀ i, e = .ready i → Event.refused i ∉ log)
    (hlast : ∀ nodes, e = .controller nodes → ∀ n ∈ nodes, n.local = false →
      n.phase.isFinal)
    (hends : ∀ after, e = .read false true after → after.active = false ∧
      ∀ n ∈ after.nodes, n.phase.isFinal) : Logged (e :: log) where
  asked i hi := by
    rcases List.mem_cons.mp hi with he | hi
    · exact List.mem_cons_of_mem _ (hasked i he.symm)
    · exact List.mem_cons_of_mem _ (h.asked i hi)
  refused i hi hr := by
    rcases List.mem_cons.mp hi with he | hi
    · rcases List.mem_cons.mp hr with hr | hr
      · rw [← he] at hr
        cases hr
      · exact hrefused i he.symm hr
    · rcases List.mem_cons.mp hr with hr | hr
      · exact hready i hr.symm hi
      · exact h.refused i hi hr
  last nodes hn := by
    rcases List.mem_cons.mp hn with he | hn
    · exact hlast nodes he.symm
    · exact h.last nodes hn
  ends after ha := by
    rcases List.mem_cons.mp ha with he | ha
    · exact hends after he.symm
    · exact h.ends after ha

/-- What no clause speaks of. -/
theorem Logged.reported (h : Logged log) (i : ℕ) (revision : Option ℕ) :
    Logged (.reported i revision :: log) :=
  h.cons (by simp) (by simp) (by simp) (by simp) (by simp)

/-! ## The preflights -/

theorem shift_cases {p q : Phase} (h : (shift p q r).nodes[j]? = some m) :
    ∃ n, r.nodes[j]? = some n ∧ (n.phase = p ∧ m = { n with phase := q } ∨ n.phase ≠ p ∧ m = n) := by
  change (r.nodes.map _)[j]? = some m at h
  rw [List.getElem?_map] at h
  obtain ⟨n, hn, he⟩ := Option.map_eq_some_iff.mp h
  refine ⟨n, hn, ?_⟩
  split at he
  case isTrue hp => exact Or.inl ⟨hp, he.symm⟩
  case isFalse hp => exact Or.inr ⟨hp, he.symm⟩

theorem Shape.shift (h : Shape r) (p q : Phase) : Shape (shift p q r) := by
  refine h.map (fun n => ?_) rfl
  split <;> rfl

theorem Fair.shift (h : Fair planned log r) {p q : Phase} (hq : q.isCompleted = false) :
    Fair planned log (shift p q r) := by
  intro j m hm hc
  obtain ⟨n, hn, ⟨-, rfl⟩ | ⟨-, rfl⟩⟩ := shift_cases hm
  · cases hq.symm.trans hc
  · exact h j m hn hc

theorem mem_eligible : i ∈ eligible r ↔
    ∃ n, r.nodes[i]? = some n ∧ n.local = false ∧ n.phase = .ready := by
  unfold eligible
  rw [List.mem_filter, List.mem_range]
  constructor
  · rintro ⟨-, hany⟩
    obtain ⟨n, hn, hp⟩ := (Option.any_eq_true _ _).mp hany
    rw [Bool.and_eq_true, Bool.not_eq_true', decide_eq_true_eq] at hp
    exact ⟨n, hn, hp⟩
  · rintro ⟨n, hn, hl, hp⟩
    refine ⟨(List.getElem?_eq_some_iff.mp hn).1, ?_⟩
    rw [hn, Option.any_some, hl, hp]
    rfl

theorem localReady_of (hn : n ∈ r.nodes) (hl : n.local) (hp : n.phase = .ready) :
    localReady r := by
  refine List.any_eq_true.mpr ⟨n, hn, ?_⟩
  rw [hl, hp]
  rfl

/-- After the last preflight, a node that has no verdict is ready. -/
theorem Planning.ready_or (h : Planning planned log r i) (hi : r.nodes[i]? = none)
    (hn : r.nodes[j]? = some n) : n.phase = .ready ∨ n.phase.isFinal := by
  refine h.before j n hn ?_
  have hj := (List.getElem?_eq_some_iff.mp hn).1
  have hle := List.getElem?_eq_none_iff.mp hi
  omega

/-- The list of workers is what is not decided, but for the local node. -/
theorem Planning.listed (h : Planning planned log r i) (hshape : Shape r)
    (hi : r.nodes[i]? = none) (hn : r.nodes[j]? = some n) :
    n.phase.isFinal ∨ n.phase = .ready ∧ (j ∈ eligible r ∨ j = 0) := by
  rcases h.ready_or hi hn with hp | hp
  · right
    refine ⟨hp, ?_⟩
    cases hl : n.local with
    | true => exact Or.inr ((hshape.2 j n hn).mp hl)
    | false => exact Or.inl (mem_eligible.mpr ⟨n, hn, hl, hp⟩)
  · exact Or.inl hp

theorem Inv.prepare (h : Inv s) (ht : s.tasks[k]? = some ⟨r, .plan i⟩)
    (hi : r.nodes[i]? = none) : Inv (s.prepare k r) := by
  have hok := (h.tasks k _ ht rfl).1
  have hplan := hok.planning i rfl
  have htodo : ∀ j ∈ eligible r, Event.ready j ∈ s.log := by
    intro j hj
    obtain ⟨n, hn, -, hp⟩ := mem_eligible.mp hj
    exact hplan.ready j n hn hp
  unfold State.prepare
  dsimp only
  split
  case isTrue hnone =>
    refine h.finish ht rfl h.logged hok.shape hok.fair fun j n hn => ?_
    rcases hplan.listed hok.shape hi hn with hp | ⟨hp, hj | rfl⟩
    · exact hp
    · rw [hnone.1] at hj
      cases hj
    · have hl := (hok.shape.2 0 n hn).mpr rfl
      rw [localReady_of (List.mem_of_getElem? hn) hl hp] at hnone
      cases hnone.2
  case isFalse =>
    split
    case isTrue =>
      refine h.save ht rfl h.logged ?_ (by simp)
      refine ⟨Shape.shift (r := { r with phase := .pendingTransfers }) hok.shape _ _,
        Fair.shift (r := { r with phase := .pendingTransfers }) hok.fair rfl, hok.active, ?_, ?_,
        ?_, ?_, htodo, by simp⟩
      · intro hp
        cases hp
      · intro _ hp
        cases hp
      · simp [Pc.planning]
      · intro _ j m hm
        obtain ⟨n, hn, ⟨hp, rfl⟩ | ⟨hp, rfl⟩⟩ := shift_cases hm
        · rcases hplan.listed hok.shape hi hn with hf | ⟨-, hj | hj⟩
          · rw [hp] at hf
            cases hf
          · exact Or.inr (Or.inl hj)
          · exact Or.inr (Or.inr ⟨hj, rfl⟩)
        · rcases hplan.ready_or hi hn with hr | hf
          · exact absurd hr hp
          · exact Or.inl hf
    case isFalse =>
      refine h.save ht rfl h.logged ?_ (by simp)
      refine ⟨hok.shape, hok.fair, hok.active, ?_, ?_, ?_, ?_, htodo, by simp⟩
      · intro hp
        cases hp
      · intro _ hp
        cases hp
      · simp [Pc.planning]
      · intro _ j n hn
        rcases hplan.listed hok.shape hi hn with hf | ⟨hp, hj | hj⟩
        · exact Or.inl hf
        · exact Or.inr (Or.inl hj)
        · exact Or.inr (Or.inr ⟨hj, hp⟩)

/-- Node `i` has been looked at, and is ready or has a verdict. -/
theorem Planning.next (h : Planning planned log r i) {f : Node → Node} {evs : List Event}
    (hf : ∀ n, (f n).phase = .ready ∧ Event.ready i ∈ evs ∨ (f n).phase.isFinal)
    (hevs : ∀ j, i + 1 ≤ j → Event.ready j ∉ evs ∧ Event.refused j ∉ evs) :
    Planning planned (evs ++ log) (r.modify i f) (i + 1) where
  before j m hm hj := by
    obtain ⟨n, hn, ⟨rfl, rfl⟩ | ⟨hne, rfl⟩⟩ := modify_cases hm
    · exact (hf n).imp_left fun hp => hp.1
    · exact h.before j m hn (by omega)
  ready j m hm hp := by
    obtain ⟨n, hn, ⟨rfl, rfl⟩ | ⟨hne, rfl⟩⟩ := modify_cases hm
    · rcases hf n with hr | hr
      · exact List.mem_append_left _ hr.2
      · rw [hp] at hr
        cases hr
    · exact List.mem_append_right _ (h.ready j m hn hp)
  planned j m hm hj := by
    obtain ⟨n, hn, ⟨rfl, rfl⟩ | ⟨hne, rfl⟩⟩ := modify_cases hm
    · omega
    · exact h.planned j m hn (by omega)
  fresh j hj := by
    obtain ⟨hr, hq⟩ := h.fresh j (by omega)
    obtain ⟨hr', hq'⟩ := hevs j hj
    refine ⟨fun hm => ?_, fun hm => ?_⟩
    · exact (List.mem_append.mp hm).elim hr' hr
    · exact (List.mem_append.mp hm).elim hq' hq

/-- The task has looked at node `i`. -/
theorem TaskOk.next (h : TaskOk planned log t) (hi : t.pc.planning = some i) {f : Node → Node}
    (evs : List Event) (hlocal : ∀ n, (f n).local = n.local)
    (hf : ∀ n, (f n).phase = .ready ∧ Event.ready i ∈ evs ∨ (f n).phase.isFinal)
    (hevs : ∀ j, i + 1 ≤ j → Event.ready j ∉ evs ∧ Event.refused j ∉ evs)
    (hdone : ∀ n, t.record.nodes[i]? = some n → (f n).phase.isCompleted →
      planned[i]? = some t.record.target) :
    TaskOk planned (evs ++ log) ⟨t.record.modify i f, .plan (i + 1)⟩ where
  shape := h.shape.modify hlocal
  fair := by
    refine (h.fair.mono (List.subset_append_right _ _)).modify fun n hn hc => ?_
    exact Or.inr (Or.inl (hdone n hn hc))
  active := h.active
  unfinished := h.unfinished
  early _ := by
    refine h.early fun hpc => ?_
    rw [hpc] at hi
    cases hi
  planning j hj := by
    cases hj
    exact (h.planning i hi).next hf hevs
  decided hp := by cases hp
  todo := by simp [Pc.todo]
  judged := by simp

theorem Inv.preflighted (h : Inv s) (ht : s.tasks[k]? = some t) (hi : t.pc.planning = some i)
    (hl : t.live) (o : Option String) : Inv (s.preflighted k i t.record o) := by
  have hok := (h.tasks k t ht hl).1
  have hfresh := (hok.planning i hi).fresh i (Nat.le_refl i)
  cases o with
  | none =>
    have hlogged : Logged (.ready i :: s.log) := by
      refine h.logged.cons (by simp) (by simp) (fun j hj => ?_) (by simp) (by simp)
      injection hj with hj
      exact hj ▸ hfresh.2
    refine h.save ht hl hlogged ?_ (by simp)
    refine hok.next hi [.ready i] (fun _ => rfl) (fun _ => Or.inl ⟨rfl, by simp⟩) ?_ ?_
    · intro j hj
      simp only [List.mem_singleton, Event.ready.injEq, reduceCtorEq, not_false_eq_true, and_true]
      omega
    · intro n _ hc
      cases hc
  | some e =>
    have hlogged : Logged (.refused i :: s.log) := by
      refine h.logged.cons (by simp) (fun j hj => ?_) (by simp) (by simp) (by simp)
      injection hj with hj
      exact hj ▸ hfresh.1
    refine h.save ht hl hlogged ?_ (by simp)
    refine hok.next hi [.refused i] (fun _ => rfl) (fun _ => Or.inr rfl) ?_ ?_
    · intro j hj
      simp only [List.mem_singleton, Event.refused.injEq, reduceCtorEq, not_false_eq_true, true_and]
      omega
    · intro n _ hc
      cases hc

theorem Inv.plan (h : Inv s) (ht : s.tasks[k]? = some ⟨r, .plan i⟩) : Inv (s.plan k i r) := by
  have hok := (h.tasks k _ ht rfl).1
  have hplan := hok.planning i rfl
  unfold State.plan
  cases hn : r.nodes[i]? with
  | none => exact h.prepare ht hn
  | some n =>
    dsimp only
    split
    case isTrue hcur =>
      refine h.put ht rfl fun _ => ?_
      refine hok.next rfl [] (fun _ => rfl) (fun _ => Or.inr rfl) (by simp) ?_
      intro n' hn' _
      cases hn.symm.trans hn'
      rw [hplan.planned i n hn (Nat.le_refl i), hcur]
    case isFalse =>
      split
      case isTrue => exact h.preflighted ht rfl rfl _
      case isFalse =>
        refine h.put ht rfl fun _ => ?_
        exact ⟨hok.shape, hok.fair, hok.active, hok.unfinished, fun _ => hok.early (by simp),
          hok.planning, by simp [Pc.planning], by simp [Pc.todo], by simp⟩

/-! ## The workers and the controller -/

variable {todo : List ℕ}

/-- The transfers are over. -/
theorem Inv.drained (h : Inv s) (ht : s.tasks[k]? = some ⟨r, .transfers todo⟩) :
    Inv (s.save k (shift .pendingTransfers .ready { r with phase := .updatingWorkers })
      (.next todo)) := by
  have hok := (h.tasks k _ ht rfl).1
  refine h.save ht rfl h.logged ?_ (by simp)
  refine ⟨Shape.shift (r := { r with phase := .updatingWorkers }) hok.shape _ _,
    Fair.shift (r := { r with phase := .updatingWorkers }) hok.fair rfl, hok.active, ?_, ?_, ?_, ?_,
    hok.todo, by simp⟩
  · intro hp
    cases hp
  · intro _ hp
    cases hp
  · simp [Pc.planning]
  · intro _ j m hm
    obtain ⟨n, hn, ⟨hp, rfl⟩ | ⟨hp, rfl⟩⟩ := shift_cases hm
    · rcases hok.decided rfl j n hn with hf | hj | ⟨hj, -⟩
      · rw [hp] at hf
        cases hf
      · exact Or.inr (Or.inl hj)
      · exact Or.inr (Or.inr ⟨hj, rfl⟩)
    · rcases hok.decided rfl j m hn with hf | hj | ⟨-, hp'⟩
      · exact Or.inl hf
      · exact Or.inr (Or.inl hj)
      · exact absurd hp' hp

/-- The same record at another place, with the same or fewer workers to come. -/
theorem TaskOk.go (h : TaskOk planned log ⟨r, pc⟩) {pc' : Pc} (hplan : pc.planning = none)
    (hplan' : pc'.planning = none) (hown : pc'.own = pc.own) (hstart : pc ≠ .startLocal)
    (htodo : ∀ j ∈ pc'.todo, j ∈ pc.todo)
    (hleft : ∀ (j : ℕ) (n : Node), r.nodes[j]? = some n → j ∈ pc.todo →
      j ∈ pc'.todo ∨ n.phase.isFinal)
    (hjudged : ∀ i todo st, pc' ≠ .judge i todo st) : TaskOk planned log ⟨r, pc'⟩ :=
  { h with
    early _ := h.early hstart
    planning i hi := by
      cases hplan'.symm.trans hi
    decided _ j n hn := by
      rcases h.decided hplan j n hn with hf | hj | hj
      · exact Or.inl hf
      · rcases hleft j n hn hj with hj | hf
        · exact Or.inr (Or.inl hj)
        · exact Or.inl hf
      · rw [hown]
        exact Or.inr (Or.inr hj)
    todo j hj := h.todo j (htodo j hj)
    judged i todo st hpc := absurd hpc (hjudged i todo st) }

/-- Node `i` is changed, and what is left to do changes with it. -/
theorem TaskOk.modify (h : TaskOk planned log ⟨r, pc⟩) {pc' : Pc} {f : Node → Node}
    (hlog : log ⊆ log') (hplan : pc.planning = none) (hplan' : pc'.planning = none)
    (hown : pc'.own = pc.own) (hstart : pc ≠ .startLocal)
    (htodo : ∀ j ∈ pc'.todo, j ∈ pc.todo) (hlocal : ∀ n, (f n).local = n.local)
    (hleft : ∀ j ∈ pc.todo, j ∈ pc'.todo ∨ j = i)
    (hf : ∀ n, r.nodes[i]? = some n → i ∈ pc'.todo ∨ (f n).phase.isFinal)
    (hdone : ∀ n, r.nodes[i]? = some n → (f n).phase.isCompleted →
      n.phase.isCompleted ∨ planned[i]? = some r.target ∨ .reported i r.target ∈ log')
    (hjudged : ∀ j todo st, pc' = .judge j todo st → j = i ∧
      ∀ n, r.nodes[i]? = some n → (f n).phase = st.phase) :
    TaskOk planned log' ⟨r.modify i f, pc'⟩ where
  shape := h.shape.modify hlocal
  fair := (h.fair.mono hlog).modify hdone
  active := h.active
  unfinished := h.unfinished
  early _ := h.early hstart
  planning j hj := by
    cases hplan'.symm.trans hj
  decided _ j m hm := by
    obtain ⟨n, hn, ⟨rfl, rfl⟩ | ⟨hne, rfl⟩⟩ := modify_cases hm
    · exact (hf n hn).elim (fun hj => Or.inr (Or.inl hj)) Or.inl
    · rcases h.decided hplan j m hn with hd | hj | hj
      · exact Or.inl hd
      · exact Or.inr (Or.inl ((hleft j hj).resolve_right hne))
      · rw [hown]
        exact Or.inr (Or.inr hj)
  todo j hj := hlog (h.todo j (htodo j hj))
  judged j todo st hpc m hm := by
    obtain ⟨rfl, hst⟩ := hjudged j todo st hpc
    obtain ⟨n, hn, ⟨-, rfl⟩ | ⟨hne, -⟩⟩ := modify_cases hm
    · exact hst n hn
    · exact absurd rfl hne

theorem Inv.next (h : Inv s) (ht : s.tasks[k]? = some ⟨r, .next todo⟩) : Inv (s.next k r todo) := by
  have hok := (h.tasks k _ ht rfl).1
  cases todo with
  | nil =>
    refine h.put ht rfl fun _ => ?_
    exact hok.go rfl rfl rfl (by simp) (by simp [Pc.todo]) (by simp [Pc.todo]) (by simp)
  | cons i todo =>
    have hi : Event.ready i ∈ s.log := hok.todo i List.mem_cons_self
    have hlogged : Logged (.asked i :: s.log) := by
      refine h.logged.cons (fun j hj => ?_) (by simp) (by simp) (by simp) (by simp)
      injection hj with hj
      exact hj ▸ hi
    refine h.save ht rfl hlogged ?_ (by simp)
    exact hok.modify (List.subset_cons_self _ _) rfl rfl rfl (by simp) (fun _ hj => hj)
      (fun _ => rfl) (fun _ hj => Or.inl hj) (fun _ _ => Or.inl List.mem_cons_self)
      nofun (by simp)

/-- Node `i` is failed, from wherever its update had got to. -/
theorem Inv.failNode (h : Inv s) {pc : Pc} (ht : s.tasks[k]? = some ⟨r, pc⟩)
    (hpc : pc = .request i todo ∨ pc = .poll i todo ∨ ∃ st, pc = .judge i todo st) (e : String) :
    Inv (s.failNode k i todo r e) := by
  have hplan : pc.planning = none ∧ pc.own = .ready ∧ pc ≠ .startLocal ∧ pc.todo = i :: todo ∧
      pc ≠ .over := by
    rcases hpc with rfl | rfl | ⟨st, rfl⟩ <;> simp [Pc.planning, Pc.own, Pc.todo]
  obtain ⟨hp, hown, hstart, htodo, hover⟩ := hplan
  have hl : Task.live ⟨r, pc⟩ := decide_eq_true hover
  have hok := (h.tasks k _ ht hl).1
  refine h.save ht hl h.logged ?_ (by simp)
  refine hok.modify (fun _ he => he) hp rfl hown.symm hstart ?_ (fun _ => rfl) ?_
    (fun _ _ => Or.inr rfl) nofun (by simp)
  · intro j hj
    rw [htodo]
    exact List.mem_cons_of_mem _ hj
  · intro j hj
    rw [htodo] at hj
    exact (List.mem_cons.mp hj).symm

theorem Inv.posted (h : Inv s) (ht : s.tasks[k]? = some ⟨r, .request i todo⟩) :
    Inv (s.put k r (.poll i todo)) := by
  refine h.put ht rfl fun _ => ?_
  exact (h.tasks k _ ht rfl).1.go rfl rfl rfl (by simp) (fun _ hj => hj) (fun _ _ _ hj => Or.inl hj)
    (by simp)

/-- What a worker answers is on file. -/
theorem Inv.polled (h : Inv s) (ht : s.tasks[k]? = some ⟨r, .poll i todo⟩) (st : Status)
    (hst : st.phase.isCompleted → st.current = r.target) :
    Inv ((s.save k (r.modify i fun n =>
      { n with phase := st.phase, current := st.current, error := st.error })
      (.judge i todo st)).note (.reported i st.current)) := by
  have hok := (h.tasks k _ ht rfl).1
  refine h.save ht rfl (h.logged.reported i st.current) ?_ (by simp)
  refine hok.modify (List.subset_cons_self _ _) rfl rfl rfl (by simp) (fun _ hj => hj)
    (fun _ => rfl) (fun _ hj => Or.inl hj) (fun _ _ => Or.inl List.mem_cons_self) ?_ ?_
  · intro n _ hc
    rw [hst hc]
    exact Or.inr (Or.inr List.mem_cons_self)
  · intro j todo' st' hpc
    injection hpc with hj _ hst'
    exact ⟨hj.symm, fun _ _ => hst' ▸ rfl⟩

theorem Inv.judge (h : Inv s) {st : Status} (ht : s.tasks[k]? = some ⟨r, .judge i todo st⟩) :
    Inv (s.judge k i todo r st) := by
  have hok := (h.tasks k _ ht rfl).1
  have hpoll : Inv (s.put k r (.poll i todo)) := by
    refine h.put ht rfl fun _ => ?_
    exact hok.go rfl rfl rfl (by simp) (fun _ hj => hj) (fun _ _ _ hj => Or.inl hj) (by simp)
  unfold State.judge
  split
  case isTrue => exact hpoll
  case isFalse =>
    split
    case isTrue hdone =>
      refine h.put ht rfl fun _ => ?_
      refine hok.modify (fun _ he => he) rfl rfl rfl (by simp)
        (fun _ hj => List.mem_cons_of_mem _ hj) (fun _ => rfl)
        (fun _ hj => (List.mem_cons.mp hj).symm) (fun n hn => Or.inr ?_)
        (fun _ _ hc => Or.inl hc) (by simp)
      rw [hok.judged i todo st rfl n hn, hdone.1]
      rfl
    case isFalse =>
      split
      case isTrue => exact h.failNode ht (Or.inr (Or.inr ⟨st, rfl⟩)) _
      case isFalse => exact hpoll

theorem Inv.controller (h : Inv s) (ht : s.tasks[k]? = some ⟨r, .controller⟩) :
    Inv (s.controller k r) := by
  have hok := (h.tasks k _ ht rfl).1
  have hworkers : Workers r := by
    intro j n hn hj
    rcases hok.decided rfl j n hn with hf | hm | ⟨h0, -⟩
    · exact hf
    · cases hm
    · exact absurd h0 hj
  unfold State.controller
  split
  case isTrue =>
    have hshape : Shape { r with phase := .updatingController } := hok.shape
    rw [hshape.modifyLocal]
    have hw : Workers ({ r with phase := .updatingController }.modify 0 fun n =>
        { n with phase := .updating }) := by
      intro j m hm hj
      obtain ⟨n, hn, ⟨h0, -⟩ | ⟨-, rfl⟩⟩ := modify_cases hm
      · exact absurd h0 hj
      · exact hworkers j m hn hj
    have hs : Shape ({ r with phase := .updatingController }.modify 0 fun n =>
        { n with phase := .updating }) := hshape.modify fun _ => rfl
    refine h.save ht rfl ?_ ?_ fun _ => hw
    · refine h.logged.cons (by simp) (by simp) (by simp) (fun nodes he n hn hl => ?_) (by simp)
      injection he with he
      subst he
      obtain ⟨j, hj⟩ := List.mem_iff_getElem?.mp hn
      refine hw j n hj fun h0 => ?_
      rw [(hs.2 j n hj).mpr h0] at hl
      cases hl
    · refine ⟨hs, ?_, hok.active, ?_, by simp, by simp [Pc.planning], ?_, by simp [Pc.todo],
        by simp⟩
      · have hfair : Fair s.planned s.log { r with phase := .updatingController } := hok.fair
        refine (hfair.modify fun _ _ hc => ?_).mono (List.subset_cons_self _ _)
        cases hc
      · intro hp
        cases hp
      · intro _ j m hm
        by_cases hj : j = 0
        · subst hj
          obtain ⟨n, -, ⟨-, rfl⟩ | ⟨hne, -⟩⟩ := modify_cases hm
          · exact Or.inr (Or.inr ⟨rfl, rfl⟩)
          · exact absurd rfl hne
        · exact Or.inl (hw j m hm hj)
  case isFalse hready =>
    refine h.finish ht rfl h.logged hok.shape hok.fair fun j n hn => ?_
    by_cases hj : j = 0
    · subst hj
      rcases hok.decided rfl 0 n hn with hf | hm | ⟨-, hp⟩
      · exact hf
      · cases hm
      · have hl := (hok.shape.2 0 n hn).mpr rfl
        exact absurd (localReady_of (List.mem_of_getElem? hn) hl hp) hready
    · exact hworkers j n hn hj

/-! ## The end of a rollout -/

/-- A rollout ends with the verdict of the local node. -/
theorem DiskOk.close (hshape : r.nodes = [] ∨ Shape r) (hfair : Fair planned log r)
    (hw : Workers r) {f : Node → Node} (hlocal : ∀ n, (f n).local = n.local)
    (hf : ∀ n, (f n).phase.isFinal)
    (hdone : ∀ n, (f n).phase.isCompleted → Shape r → .reported 0 r.target ∈ log) :
    DiskOk planned log (r.modifyLocal f).finish := by
  rcases hshape with hnil | hshape
  · have hsame : r.modifyLocal f = r := by
      unfold Record.modifyLocal
      rw [hnil]
      rfl
    rw [hsame]
    refine DiskOk.finish (Or.inl hnil) hfair fun i n hn => ?_
    rw [hnil] at hn
    cases hn
  · rw [hshape.modifyLocal]
    refine DiskOk.finish (Or.inr (hshape.modify hlocal)) ?_ (hw.decided fun n _ => hf n)
    exact hfair.modify fun n _ hc => Or.inr (Or.inr (hdone n hc hshape))

theorem report_eq (h : Shape r) : s.report r = s.note (.reported 0 s.revision) := by
  unfold State.report
  rw [h.findIdx]

theorem Inv.startedLocal (h : Inv s) (ht : s.tasks[k]? = some ⟨r, .startLocal⟩)
    (o : Option String) : Inv (s.startedLocal k r o) := by
  have hok := (h.tasks k _ ht rfl).1
  have hworkers : Workers r := by
    intro j n hn hj
    rcases hok.decided rfl j n hn with hf | hm | ⟨h0, -⟩
    · exact hf
    · cases hm
    · exact absurd h0 hj
  cases o with
  | some e =>
    refine h.move ht rfl rfl rfl h.logged ?_
      nofun
    exact DiskOk.close (Or.inr hok.shape) hok.fair hworkers (fun _ => rfl) (fun _ => rfl)
      nofun
  | none =>
    unfold State.startedLocal
    dsimp only
    split
    case isTrue hrev =>
      rw [report_eq hok.shape]
      refine h.move ht rfl rfl rfl (h.logged.reported 0 s.revision) ?_
        nofun
      refine DiskOk.close (Or.inr hok.shape) (hok.fair.mono (List.subset_cons_self _ _)) hworkers
        (fun _ => rfl) (fun _ => rfl) fun _ _ _ => ?_
      rw [← hrev]
      exact List.mem_cons_self
    case isFalse => exact h.put ht rfl fun hp => absurd rfl hp

theorem Inv.fault (h : Inv s) (ht : s.tasks[k]? = some t) {saved : Bool}
    (hs : s.fault k t e saved = some s') : Inv s' := by
  obtain ⟨hl, hs⟩ := Option.ite_none_right_eq_some.mp hs
  have hok := (h.tasks k t ht hl).1
  split at hs
  case isTrue =>
    cases hs
    refine h.move ht hl rfl rfl h.logged ?_ nofun
    exact DiskOk.abort (Or.inr hok.shape) hok.fair _
  case isFalse =>
    cases hs
    exact h.put ht hl fun hp => absurd rfl hp

/-! ## A reading -/

variable {revision : Option ℕ} {live : Bool} {a : Agent} {d : Record}

theorem serve_ok (h : DiskOk planned log d) (hrep : Shape d → .reported 0 d.target ∈ log)
    (hdone : Decided d) (hact : d.active = false) : DiskOk planned log (serve revision d) := by
  unfold serve
  rcases h.shape with hnil | hshape
  · have hsame : ∀ f, d.modifyLocal f = d := by
      intro f
      unfold Record.modifyLocal
      rw [hnil]
      rfl
    rw [hsame]
    exact h
  · rw [hshape.modifyLocal]
    refine ⟨Or.inr (hshape.modify fun _ => rfl), ?_, ?_, ?_, ?_⟩
    · exact h.fair.modify fun _ _ _ => Or.inr (Or.inr (hrep hshape))
    · intro _ i m hm _
      obtain ⟨n, hn, ⟨-, rfl⟩ | ⟨-, rfl⟩⟩ := modify_cases hm
      · rfl
      · exact hdone i m hn
    · intro _ i m hm
      obtain ⟨n, hn, ⟨-, rfl⟩ | ⟨-, rfl⟩⟩ := modify_cases hm
      · rfl
      · exact hdone i m hn
    · intro hp
      refine ⟨hact, fun m hm => ?_⟩
      obtain ⟨i, hi⟩ := List.mem_iff_getElem?.mp hm
      obtain ⟨n, hn, ⟨-, rfl⟩ | ⟨-, rfl⟩⟩ := modify_cases hi
      · rfl
      · exact (h.succeeded hp).2 m (List.mem_of_getElem? hn)

theorem reconcileLocal_ok (h : DiskOk planned log d) (hp : d.phase = .updatingController)
    (hrep : Shape d → .reported 0 revision ∈ log) (hact : d.active) :
    DiskOk planned log (reconcileLocal revision a d) := by
  have hw := h.workers hp
  unfold reconcileLocal
  split
  case isTrue hs =>
    refine DiskOk.close h.shape h.fair hw (fun _ => rfl) (fun _ => rfl) fun _ _ hshape => ?_
    rw [← hs.2.1]
    exact hrep hshape
  case isFalse =>
    split
    case isTrue hf =>
      refine DiskOk.close h.shape h.fair hw (fun _ => rfl) (fun _ => isFinal_of_isFailed hf) ?_
      intro n hc
      rw [not_isCompleted_of_isFailed hf] at hc
      cases hc
    case isFalse =>
      split
      case isTrue =>
        rcases h.shape with hnil | hshape
        · rw [modifyLocal_nil hnil]
          exact h
        · rw [hshape.modifyLocal]
          refine ⟨Or.inr (hshape.modify fun _ => rfl), ?_, ?_, ?_, ?_⟩
          · exact h.fair.modify nofun
          · intro _ i m hm hi
            obtain ⟨n, hn, ⟨h0, -⟩ | ⟨-, rfl⟩⟩ := modify_cases hm
            · exact absurd h0 hi
            · exact hw i m hn hi
          · intro hact'
            rw [show d.active = false from hact'] at hact
            cases hact
          · intro hp'
            rw [show d.phase = .succeeded from hp'] at hp
            cases hp
      case isFalse =>
        split
        case isTrue => exact h
        case isFalse =>
          exact DiskOk.close h.shape h.fair hw (fun _ => rfl) (fun _ => rfl)
            nofun

theorem reconcile_ok (h : DiskOk planned log d) (hrep : Shape d → .reported 0 revision ∈ log) :
    DiskOk planned log (reconcile revision live a d) := by
  unfold reconcile
  split
  case isTrue hact =>
    rw [Bool.and_eq_true] at hact
    split
    case isTrue hp => exact reconcileLocal_ok h hp hrep hact.1
    case isFalse =>
      split
      case isTrue hnil =>
        refine ⟨Or.inl hnil, h.fair, fun hp => ?_, fun _ i n hn => ?_, fun hp => ?_⟩
        · cases hp
        · change d.nodes[i]? = some n at hn
          rw [hnil] at hn
          cases hn
        · cases hp
      case isFalse => exact DiskOk.abort h.shape h.fair _
  case isFalse =>
    split
    case isTrue hs =>
      obtain ⟨hact, -⟩ := h.succeeded hs.1
      exact serve_ok h (fun hshape => hs.2.2.1 ▸ hrep hshape) (h.ended hact) hact
    case isFalse => exact h

@[simp] theorem modifyLocal_active {f : Node → Node} : (d.modifyLocal f).active = d.active := by
  unfold Record.modifyLocal
  split <;> rfl

/-- Only an active rollout whose task is gone is changed, but for the local node. -/
theorem reconcile_active (hlive : d.active → live) :
    (reconcile revision live a d).active = d.active := by
  unfold reconcile
  split
  case isTrue hact =>
    rw [Bool.and_eq_true] at hact
    rw [hlive hact.1] at hact
    cases hact.2
  case isFalse =>
    split
    case isTrue => exact modifyLocal_active
    case isFalse => rfl

/-- When the local operation is over, so is a rollout of which the task is gone. -/
theorem reconcile_ends (hfinal : a.isFinal)
    (hstuck : ¬(d.phase = .updatingController ∧ d.active ∧ a.phase = .succeeded ∧
      a.alive ∧ ¬(revision = d.target ∧ a.target = d.target))) :
    (reconcile revision false a d).active = false := by
  unfold reconcile
  cases hact : d.active with
  | true =>
    rw [Bool.true_and, Bool.not_false, if_pos rfl]
    split
    case isTrue hp =>
      unfold reconcileLocal
      split
      case isTrue => exact finish_active
      case isFalse hno =>
        split
        case isTrue => exact finish_active
        case isFalse hnf =>
          have hsucc : a.phase = .succeeded := by
            rw [Agent.isFinal, Bool.or_eq_true, decide_eq_true_eq] at hfinal
            exact hfinal.resolve_left hnf
          rw [if_neg (by rw [hsucc]; decide)]
          split
          case isTrue hal =>
            exact absurd ⟨hp, hact, hsucc, hal, fun hb => hno ⟨hsucc, hb.1, hb.2⟩⟩ hstuck
          case isFalse => exact finish_active
    case isFalse =>
      split
      case isTrue => rfl
      case isFalse => exact finish_active
  | false =>
    rw [Bool.false_and, if_neg Bool.false_ne_true]
    split
    case isTrue => exact modifyLocal_active.trans hact
    case isFalse => exact hact

theorem Inv.report (h : Inv s) (r : Record) : Inv (s.report r) := by
  unfold State.report
  split
  case h_1 i _ =>
    have hsub : s.log ⊆ Event.reported i s.revision :: s.log := List.subset_cons_self _ _
    refine ⟨h.disk.mono hsub, h.logged.reported i s.revision, fun k t ht hl => ?_, h.starts⟩
    obtain ⟨hok, hk, hact⟩ := h.tasks k t ht hl
    exact ⟨hok.mono_log hsub (by simp [State.note]) (by simp [State.note]), hk, hact⟩
  case h_2 => exact h

/-- A live task is the last one. -/
theorem Inv.taskLive (h : Inv s) (ht : s.tasks[k]? = some t) (hl : t.live) :
    s.taskLive := by
  have hk := (h.tasks k t ht hl).2.1
  unfold State.taskLive
  rw [List.getLast?_eq_getElem?, show s.tasks.length - 1 = k by omega, ht]
  exact hl

theorem not_stuck (h : s.stuck a = false) (hlive : s.taskLive = false) :
    ¬(s.disk.phase = .updatingController ∧ s.disk.active ∧ a.phase = .succeeded ∧
      a.alive ∧ ¬(s.revision = s.disk.target ∧ a.target = s.disk.target)) := by
  rintro ⟨hp, hact, hsucc, hal, hno⟩
  unfold State.stuck at h
  rw [hact, hlive, hp, hsucc, hal] at h
  simp only [Bool.not_false, Bool.true_and, decide_true, Bool.not_eq_false', Bool.and_eq_true,
    decide_eq_true_eq] at h
  exact hno h

theorem Inv.overview (h : Inv s) (hstuck : s.stuck a = false) : Inv (s.overview a) := by
  have hrep := h.report s.disk
  have hstill : s.disk.active → s.taskLive →
      (reconcile s.revision s.taskLive a s.disk).active = s.disk.active :=
    fun _ hl => reconcile_active fun _ => hl
  have hok : DiskOk s.planned (s.report s.disk).log (reconcile s.revision s.taskLive a s.disk) := by
    have hdisk : DiskOk s.planned (s.report s.disk).log s.disk := by
      have hd := hrep.disk
      unfold State.report at hd ⊢
      split at hd <;> exact hd
    refine reconcile_ok hdisk fun hshape => ?_
    rw [report_eq hshape]
    exact List.mem_cons_self
  have hsub : (s.report s.disk).log ⊆ (s.overview a).log := List.subset_cons_self _ _
  have hsame : (s.report s.disk).tasks = s.tasks ∧ (s.report s.disk).starts = s.starts ∧
      (s.report s.disk).holder = s.holder ∧ (s.report s.disk).planned = s.planned ∧
      (s.report s.disk).disk = s.disk := by
    unfold State.report
    split <;> exact ⟨rfl, rfl, rfl, rfl, rfl⟩
  obtain ⟨htasks, hstarts, hholder, hplanned, hdisk⟩ := hsame
  refine ⟨?_, ?_, fun k t ht hl => ?_, fun k hk => ?_⟩
  · change DiskOk (s.report s.disk).planned (s.overview a).log
      (reconcile s.revision s.taskLive a s.disk)
    rw [hplanned]
    exact hok.mono hsub
  · refine hrep.logged.cons (by simp) (by simp) (by simp) (by simp) fun after he => ?_
    injection he with hlive hfinal hafter
    subst hafter
    have hact : (reconcile s.revision s.taskLive a s.disk).active = false := by
      rw [hlive]
      exact reconcile_ends hfinal (not_stuck hstuck hlive)
    refine ⟨hact, fun n hn => ?_⟩
    obtain ⟨i, hi⟩ := List.mem_iff_getElem?.mp hn
    exact hok.ended hact i n hi
  · change (s.report s.disk).tasks[k]? = some t at ht
    obtain ⟨htask, hk, hact⟩ := hrep.tasks k t ht hl
    refine ⟨htask.mono_log hsub (by simp [State.overview, State.note])
      (by simp [State.overview, State.note]), hk, ?_⟩
    rw [htasks] at ht
    rw [hdisk] at hact
    exact (hstill hact (h.taskLive ht hl)).trans hact
  · change (s.report s.disk).starts[k]? = some .checking at hk
    rw [hstarts] at hk
    obtain ⟨hh, hact⟩ := h.starts k hk
    refine ⟨hholder.trans hh, ?_⟩
    refine (reconcile_active fun hon => ?_).trans hact
    cases hact.symm.trans hon

/-! ## Calls -/

theorem Inv.acquire (h : Inv s) (hfree : s.holder = none) : Inv (s.acquire k a) := by
  have hno : ∀ j : ℕ, s.starts[j]? ≠ some .checking := by
    intro j hj
    rw [(h.starts j hj).1] at hfree
    cases hfree
  unfold State.acquire
  split
  case isTrue =>
    refine ⟨h.disk, h.logged, h.tasks, fun j hj => ?_⟩
    rcases Table.set_cases hj with ⟨-, he⟩ | ⟨-, hj⟩
    · cases he
    · exact absurd hj (hno j)
  case isFalse hact =>
    have hact := Bool.eq_false_iff.mpr hact
    have hstuck : s.stuck a = false := by
      unfold State.stuck
      rw [hact]
      rfl
    have hov := h.overview hstuck
    have hidle : (s.overview a).disk.active = false := by
      refine (reconcile_active fun hon => ?_).trans hact
      cases hact.symm.trans hon
    refine ⟨hov.disk, hov.logged, hov.tasks, fun j hj => ?_⟩
    rcases Table.set_cases hj with ⟨rfl, -⟩ | ⟨-, hj⟩
    · exact ⟨rfl, hidle⟩
    · exact absurd hj (hno j)

theorem Inv.refuse (h : Inv s) (hk : s.starts[k]? = some .checking) :
    Inv { s with starts := s.starts.set k .over, holder := none } := by
  refine ⟨h.disk, h.logged, h.tasks, fun j hj => ?_⟩
  rcases Table.set_cases hj with ⟨-, he⟩ | ⟨hne, hj⟩
  · cases he
  · have hholder := (h.starts k hk).1.symm.trans (h.starts j hj).1
    exact absurd (Option.some.inj hholder).symm hne

theorem plan_nodes {l : Plan} {workers : List Plan} (hn : (l.node true ::
    workers.map (·.node false))[i]? = some n) :
    n.phase = .pending ∧ (n.local ↔ i = 0) := by
  cases i with
  | zero =>
    cases hn
    exact ⟨rfl, by simp [Plan.node]⟩
  | succ i =>
    rw [List.getElem?_cons_succ, List.getElem?_map] at hn
    obtain ⟨p, -, rfl⟩ := Option.map_eq_some_iff.mp hn
    exact ⟨rfl, by simp [Plan.node]⟩

theorem Inv.create (h : Inv s) (hk : s.starts[k]? = some .checking) {target : ℕ} {l : Plan}
    {workers : List Plan} :
    Inv (s.create k target (l.node true :: workers.map (·.node false))) := by
  obtain ⟨hholder, hidle⟩ := h.starts k hk
  have hlogged : Logged [] := ⟨by simp, by simp, by simp, by simp⟩
  have hok : TaskOk ((l.node true :: workers.map (·.node false)).map (·.current)) []
      ⟨⟨true, .preflight, some target, l.node true :: workers.map (·.node false), none⟩,
        .created⟩ := by
    refine ⟨⟨by simp, fun i n hn => (plan_nodes hn).2⟩, fun i n hn hc => ?_, rfl, fun hp => ?_,
      fun _ hp => ?_, fun i hi => ?_, fun hp => ?_, by simp [Pc.todo], by simp⟩
    · rw [(plan_nodes hn).1] at hc
      cases hc
    · cases hp
    · cases hp
    · cases hi
      refine ⟨fun j n _ hj => absurd hj (Nat.not_lt_zero j), fun j n hn hp => ?_,
        fun j n hn _ => ?_, by simp⟩
      · rw [(plan_nodes hn).1] at hp
        cases hp
      · rw [List.getElem?_map, hn]
        rfl
    · cases hp
  refine ⟨hok.disk (by simp), hlogged, fun j t hj hl => ?_, fun j hj => ?_⟩
  · change (s.tasks ++ [_])[j]? = some t at hj
    rcases Table.append_cases hj with hj | ⟨rfl, rfl⟩
    · have hact := (h.tasks j t hj hl).2.2
      cases hidle.symm.trans hact
    · refine ⟨hok, ?_, rfl⟩
      change _ = (s.tasks ++ [_]).length
      rw [List.length_append, List.length_singleton]
  · rcases Table.set_cases hj with ⟨-, he⟩ | ⟨hne, hj⟩
    · cases he
    · have hsame := hholder.symm.trans (h.starts j hj).1
      exact absurd (Option.some.inj hsame).symm hne

theorem Inv.closed (h : Inv s) {pending : Bool} (hover : ∀ t ∈ s.tasks, t.live = false) :
    Inv (s.closed k pending) := by
  refine ⟨?_, h.logged, fun j t hj hl => ?_, fun j hj => ?_⟩
  · unfold State.closed
    split
    case isTrue => exact DiskOk.abort h.disk.shape h.disk.fair _
    case isFalse => exact h.disk
  · rw [hover t (List.mem_of_getElem? hj)] at hl
    cases hl
  · obtain ⟨hh, hact⟩ := h.starts j hj
    refine ⟨hh, ?_⟩
    change (if pending && s.disk.active then _ else s.disk).active = false
    rw [hact, Bool.and_false, if_neg Bool.false_ne_true]
    exact hact

/-! ## Runs -/

theorem Inv.resume (h : Inv s) (ht : s.tasks[k]? = some t) {b : Act} (hc : Plain s b)
    (hb : b.task = some k) (hs : s.resume k t b = some s') : Inv s' := by
  obtain ⟨r, pc⟩ := t
  cases b <;> simp only [Act.task, Option.some.injEq, reduceCtorEq] at hb
  case preflighted k' p =>
    simp only [State.resume] at hs
    split at hs
    case h_1 _ i =>
      cases hs
      exact h.preflighted ht rfl rfl p.error
    case h_2 => cases hs
  case drained k' =>
    simp only [State.resume] at hs
    split at hs
    case h_1 _ todo =>
      cases hs
      exact h.drained ht
    case h_2 => cases hs
  case posted k' o =>
    simp only [State.resume] at hs
    split at hs
    case h_1 _ i todo =>
      cases o with
      | none =>
        cases hs
        exact h.posted ht
      | some e =>
        cases hs
        exact h.failNode ht (Or.inl rfl) e
    case h_2 => cases hs
  case polled k' st =>
    simp only [State.resume] at hs
    split at hs
    case h_1 _ i todo =>
      cases hs
      subst hb
      exact h.polled ht st fun hcomp => hc hcomp _ ht
    case h_2 => cases hs
  case pollFails k' e =>
    simp only [State.resume] at hs
    split at hs
    case h_1 _ i todo =>
      cases hs
      exact h.failNode ht (Or.inr (Or.inl rfl)) e
    case h_2 => cases hs
  case started k' o =>
    simp only [State.resume] at hs
    split at hs
    case h_1 =>
      cases hs
      exact h.startedLocal ht o
    case h_2 => cases hs
  case cancelled k' =>
    obtain ⟨hl, rfl⟩ := guard_some hs
    exact h.put ht hl.2 fun hp => absurd rfl hp

theorem Inv.run (h : Inv s) (ht : s.tasks[k]? = some t) (hs : s.run k t = some s') : Inv s' := by
  obtain ⟨r, pc⟩ := t
  cases pc <;> simp only [State.run, Option.some.injEq, reduceCtorEq] at hs
  case created =>
    subst hs
    refine h.put ht rfl fun _ => ?_
    have hok := (h.tasks k _ ht rfl).1
    exact ⟨hok.shape, hok.fair, hok.active, hok.unfinished, fun _ => hok.early (by simp),
      hok.planning, by simp [Pc.planning], by simp [Pc.todo], by simp⟩
  case plan i =>
    subst hs
    exact h.plan ht
  case next todo =>
    subst hs
    exact h.next ht
  case judge i todo st =>
    subst hs
    exact h.judge ht
  case controller =>
    subst hs
    exact h.controller ht

theorem Inv.act (h : Inv s) {b : Act} (hc : Plain s b) (hs : s.act b = some s') : Inv s' := by
  cases b <;> simp only [State.act, Act.task, Option.some.injEq, reduceCtorEq] at hs
  case start =>
    obtain ⟨_, hs⟩ := Option.ite_none_left_eq_some.mp hs
    cases hs
    refine ⟨h.disk, h.logged, h.tasks, fun j hj => ?_⟩
    rcases Table.append_cases hj with hj | ⟨-, he⟩
    · exact h.starts j hj
    · cases he
  case acquire k a =>
    obtain ⟨hk, rfl⟩ := guard_some hs
    exact h.acquire hk.2
  case create k target l workers =>
    obtain ⟨hk, rfl⟩ := guard_some hs
    exact h.create hk.1
  case refuse k =>
    obtain ⟨hk, rfl⟩ := guard_some hs
    exact h.refuse hk
  case overview a =>
    subst hs
    exact h.overview hc
  case close =>
    subst hs
    exact { h with }
  case closed k =>
    split at hs
    case h_1 pending hp =>
      obtain ⟨hover, rfl⟩ := guard_some hs
      exact h.closed hover
    case h_2 => cases hs
  all_goals
    split at hs
    case h_1 t ht => exact h.resume ht hc rfl hs
    case h_2 => cases hs

theorem Inv.step (h : Inv s) {b : Act} (hc : Plain s b) (hs : step s b = some s') : Inv s' := by
  cases b
  case restart revision =>
    cases hs
    refine ⟨h.disk, h.logged, fun k t ht => ?_, fun k hk => ?_⟩
    · cases ht
    · cases hk
  case run k =>
    simp only [Rollout.step] at hs
    split at hs
    case h_1 t ht =>
      split at hs
      case isTrue => exact h.run ht hs
      case isFalse => cases hs
    case h_2 => cases hs
  case fault k e saved =>
    simp only [Rollout.step] at hs
    split at hs
    case h_1 t ht => exact h.fault ht hs
    case h_2 => cases hs
  all_goals
    simp only [Rollout.step] at hs
    split at hs
    case isTrue => exact h.act hc hs
    case isFalse => cases hs

theorem inv_init {revision : Option ℕ} {nas : Bool} : Inv (init revision nas) where
  disk := by
    refine ⟨Or.inl rfl, fun i n hn => ?_, fun hp => ?_, fun _ i n hn => ?_, fun hp => ?_⟩
    · cases hn
    · cases hp
    · cases hn
    · cases hp
  logged := ⟨by simp [init], by simp [init], by simp [init], by simp [init]⟩
  tasks k t ht := by cases ht
  starts k hk := by cases hk

/-- **A rollout tells the truth and ends**, in every run in which the workers do and no helper
outlives its operation. -/
theorem truthful {revision : Option ℕ} {nas : Bool}
    (h : Reach step Plain (init revision nas) s) : Truthful s :=
  (h.invariant inv_init fun _ _ _ hi hc hs => hi.step hc hs).truth

/-- No local operation. -/
def noAgent : Agent := ⟨.idle, none, none, false⟩

/-- A worker, and then the controller, which comes back with the target. -/
def rollout : List Act :=
  [.start, .acquire 0 noAgent, .create 0 2 ⟨"spark", [], some 1⟩ [⟨"worker", [], some 1⟩],
    .run 0, .run 0, .preflighted 0 .passed, .run 0, .preflighted 0 (.status [] true), .run 0,
    .drained 0, .run 0, .posted 0 none, .polled 0 ⟨.restarting, some 1, none⟩, .run 0,
    .polled 0 ⟨.succeeded, some 2, none⟩, .run 0, .run 0, .run 0, .started 0 none,
    .restart (some 2), .overview ⟨.succeeded, some 2, none, false⟩]

theorem truthful_rollout : ∃ s, Reach step Plain (init (some 1) true) s ∧
    s.disk.phase = .succeeded ∧ Truthful s := by
  have hrun : (replay step Plain (init (some 1) true) rollout).any
      (fun s => decide (s.disk.phase = .succeeded)) = true := by decide +kernel
  obtain ⟨s, hr, hs⟩ := reach_any hrun
  exact ⟨s, hr, of_decide_eq_true hs, truthful hr⟩

/-- The worker says that it is done, at the revision it was at, and the service is shut down. -/
def stale : List Act :=
  [.start, .acquire 0 noAgent, .create 0 2 ⟨"spark", [], some 2⟩ [⟨"worker", [], some 1⟩],
    .run 0, .run 0, .run 0, .preflighted 0 (.status [] true), .run 0, .drained 0, .run 0,
    .posted 0 none, .polled 0 ⟨.succeeded, some 1, none⟩, .run 0, .close, .cancelled 0, .closed 0]

/-- **A rollout succeeds though its worker never was at the target.** -/
theorem believed : ∃ s, Reach step Free (init (some 2) true) s ∧ ¬Truthful s := by
  have hrun : (replay step Free (init (some 2) true) stale).any (fun s => decide
      (s.disk.phase = .succeeded ∧ s.disk.nodes[1]?.isSome = true ∧
        s.planned[1]? ≠ some s.disk.target ∧ .reported 1 s.disk.target ∉ s.log)) = true := by
    decide +kernel
  obtain ⟨s, hr, hs⟩ := reach_any hrun
  obtain ⟨hp, hnode, hplanned, hlog⟩ := of_decide_eq_true hs
  refine ⟨s, hr, fun h => ?_⟩
  obtain ⟨n, hn⟩ := Option.isSome_iff_exists.mp hnode
  exact (h.succeeded hp 1 n hn).elim hplanned hlog

end SparkDeck.Update.Rollout
