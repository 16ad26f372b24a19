import SparkDeck.Vnas.Queue
import SparkDeck.Lib.Assoc

/-!
# The jobs of a request

* `jobs_ids`, `jobs_targets`: a request's jobs have the given ids and its nodes.
* `jobs_order`: no job of a request depends on itself or on a later one.
* `nodes_nodup`: no node is named twice by a valid request.
-/

namespace SparkDeck.Vnas.Queue

namespace Request

variable {I N M F : Type*} [DecidableEq N] [DecidableEq F]

variable (r : Request N M F) (primary : Option I) (i : I) (t : N)

@[simp] theorem job_id : (r.job primary i t).id = i := by
  cases r with
  | transfer => rfl
  | download =>
    unfold job
    dsimp only
    split <;> rfl

@[simp] theorem job_target : (r.job primary i t).target = t := by
  cases r with
  | transfer => rfl
  | download =>
    unfold job
    dsimp only
    split <;> rfl

@[simp] theorem job_model : (r.job primary i t).model = r.model := by
  cases r with
  | transfer => rfl
  | download =>
    unfold job
    dsimp only
    split <;> rfl

/-- Only a transfer of a download request depends on a job, the first one. -/
theorem job_dependsOn {d : I} (h : (r.job primary i t).dependsOn = some d) :
    primary = some d ∧ t ∉ r.downloadNodes ∧ r.downloadNodes ≠ [] := by
  cases r with
  | transfer => cases h
  | download m rev req n more ts s files wf =>
    unfold job at h
    dsimp only at h
    split at h
    case isTrue => cases h
    case isFalse ht =>
      refine ⟨?_, ht, by simp [downloadNodes, List.eraseDups_cons]⟩
      obtain ⟨_, h⟩ := Option.ite_none_left_eq_some.mp h
      exact h

variable {r} {ids : List I}

theorem jobs_getElem? (k : ℕ) : (r.jobs ids)[k]? =
    match ids[k]?, r.nodes[k]? with
    | some i, some t => some (r.job ids.head? i t)
    | _, _ => none :=
  List.getElem?_zipWith

theorem jobs_ids (h : ids.length = r.nodes.length) : (r.jobs ids).map Job.id = ids := by
  refine List.ext_getElem? fun k => ?_
  rw [List.getElem?_map, jobs_getElem?]
  cases hi : ids[k]? with
  | none => rfl
  | some i =>
    have hk : k < r.nodes.length := h ▸ (List.getElem?_eq_some_iff.mp hi).1
    rw [List.getElem?_eq_getElem hk]
    simp

theorem jobs_targets (h : ids.length = r.nodes.length) : (r.jobs ids).map Job.target = r.nodes := by
  refine List.ext_getElem? fun k => ?_
  rw [List.getElem?_map, jobs_getElem?]
  cases hn : r.nodes[k]? with
  | none => cases ids[k]? <;> rfl
  | some t =>
    have hk : k < ids.length := h ▸ (List.getElem?_eq_some_iff.mp hn).1
    rw [List.getElem?_eq_getElem hk]
    simp

theorem mem_jobs {j : Job I N M F} (h : j ∈ r.jobs ids) :
    j.id ∈ ids ∧ j.target ∈ r.nodes ∧ j.model = r.model ∧
      ∀ d, j.dependsOn = some d → ids.head? = some d := by
  obtain ⟨k, hk⟩ := List.mem_iff_getElem?.mp h
  rw [jobs_getElem?] at hk
  split at hk
  case h_1 i t hi ht =>
    cases hk
    refine ⟨?_, ?_, job_model .., fun d hd => (job_dependsOn r _ i t hd).1⟩
    · rw [job_id]
      exact List.mem_of_getElem? hi
    · rw [job_target]
      exact List.mem_of_getElem? ht
  case h_2 => cases hk

theorem jobs_order (hids : ids.Nodup) :
    (r.jobs ids).Pairwise (fun a b => a.dependsOn ≠ some b.id) ∧
      ∀ a ∈ r.jobs ids, a.dependsOn ≠ some a.id := by
  -- a job that others depend on is the first, and that one is a download
  have hfirst : ∀ {x y : ℕ} {a b : Job I N M F}, (r.jobs ids)[x]? = some a →
      (r.jobs ids)[y]? = some b → a.dependsOn = some b.id → y = 0 ∧ x ≠ 0 := by
    intro x y a b hx hy hd
    rw [jobs_getElem?] at hx hy
    split at hx
    case h_2 => cases hx
    case h_1 i t hi ht =>
      split at hy
      case h_2 => cases hy
      case h_1 i' t' hi' ht' =>
        cases hx
        cases hy
        obtain ⟨hhead, hnot, hnodes⟩ := job_dependsOn r _ i t hd
        rw [job_id, List.head?_eq_getElem?] at hhead
        obtain ⟨h0, -⟩ := List.getElem?_eq_some_iff.mp hhead
        refine ⟨((List.getElem?_inj h0 hids).mp (hhead.trans hi'.symm)).symm, ?_⟩
        rintro rfl
        refine hnot ?_
        cases hdn : r.downloadNodes with
        | nil => exact absurd hdn hnodes
        | cons n rest =>
          rw [nodes, hdn] at ht
          obtain rfl : n = t := by simpa using ht
          exact List.mem_cons_self
  constructor
  · refine List.pairwise_iff_getElem.mpr fun x y hx hy hxy hd => ?_
    have := (hfirst (List.getElem?_eq_getElem hx) (List.getElem?_eq_getElem hy) hd).1
    omega
  · intro a ha hd
    obtain ⟨x, hx⟩ := List.mem_iff_getElem?.mp ha
    obtain ⟨h0, hne⟩ := hfirst hx hx hd
    exact hne h0

theorem nodes_nodup (h : r.valid) : r.nodes.Nodup := by
  cases r with
  | transfer => exact Assoc.nodup_eraseDups _
  | download m rev req n more ts s files wf =>
    refine List.nodup_append.mpr
      ⟨Assoc.nodup_eraseDups _, Assoc.nodup_eraseDups _, fun a ha b hb hab => ?_⟩
    simp only [valid, Bool.and_eq_true] at h
    have hall := List.all_eq_true.mp h.1.2 b hb
    exact of_decide_eq_true hall (hab ▸ ha)

end Request

end SparkDeck.Vnas.Queue
