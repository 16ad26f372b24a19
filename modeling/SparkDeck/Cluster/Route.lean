import Mathlib.Data.List.Sort

/-!
# The route of a cluster request

Model of `_balanced_cluster_member` (`manager.py:7711-7753`): who is chosen from the members, by what
is known of them when the route is made (`View`): which look available (for a group its whole group)
and how many requests each has. A route keeps that no member is tried twice as a field.
-/

namespace SparkDeck.Cluster

/-- The candidates of a pass, in the order they are tried. -/
structure Route (M : Type*) where
  order : List M
  nodup : order.Nodup

structure View (M : Type*) where
  available : M → Bool
  /-- `_cluster_member_active`. -/
  active : M → ℕ
  /-- The deployment's entry of `_cluster_member_rotation`. -/
  rotation : ℕ

variable {M : Type*} (v : View M)

/-- The available members, or all when none is. -/
def View.pool (members : List M) : List M :=
  if members.filter v.available = [] then members else members.filter v.available

/-- The members of the pool with the least load. -/
def View.tied (members : List M) : List M :=
  (v.pool members).filter fun m => (v.pool members).all fun n => v.active m ≤ v.active n

/-- `_balanced_cluster_member`. -/
def View.balanced (members : List M) : Option M :=
  (v.tied members)[v.rotation % (v.tied members).length]?

variable {v}

theorem View.balanced_mem {members : List M} {m : M} (h : v.balanced members = some m) :
    m ∈ members := by
  have hmem : m ∈ v.pool members := (List.mem_filter.mp (List.mem_of_getElem? h)).1
  rw [View.pool] at hmem
  split at hmem
  · exact hmem
  · exact (List.mem_filter.mp hmem).1

end SparkDeck.Cluster
