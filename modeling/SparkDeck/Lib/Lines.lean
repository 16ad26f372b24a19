import Mathlib.Data.List.Basic

/-!
# The lines of a stream

`feed sep buf data` is the loop of a reader that keeps what follows the last separator: the lines
that `data` completes, and what is kept. `feed_append` says that the cuts between the pieces in
which the data arrives make no difference.
-/

namespace Lines

variable {α : Type*} [DecidableEq α] {sep : α}

/-- The lines completed, and the rest. -/
def feed (sep : α) : List α → List α → List (List α) × List α
  | buf, [] => ([], buf)
  | buf, c :: data =>
    if c = sep then ((buf :: (feed sep [] data).1), (feed sep [] data).2)
    else feed sep (buf ++ [c]) data

theorem feed_append (buf a b : List α) :
    feed sep buf (a ++ b) =
      ((feed sep buf a).1 ++ (feed sep (feed sep buf a).2 b).1,
        (feed sep (feed sep buf a).2 b).2) := by
  induction a generalizing buf with
  | nil => rfl
  | cons c a ih =>
    rw [List.cons_append, feed, feed]
    split
    · rw [ih]
      rfl
    · exact ih _

end Lines
