import Mathlib.Data.List.Basic

/-!
# Texts that end where they end

A writer `f` gives a text to every value. `Reads P f a` says that the text of `a` can be told from
what follows it: where a text starts with it and goes on with a rest that `P` allows, no other
value starts the same text. With every rest allowed this is prefix-freeness. A list of values whose
texts are closed by a mark they do not start with, or separated by one and closed by another, can
be read back in the same sense.
-/

namespace Reading

variable {α β : Type*}

/-- The text of `a` followed by a rest that `P` allows is read in one way. -/
def Reads (P : List β → Prop) (f : α → List β) (a : α) : Prop :=
  ∀ b s t, P s → P t → f a ++ s = f b ++ t → a = b ∧ s = t

/-- Every rest is allowed. -/
def Anything (_ : List β) : Prop := True

/-- The texts that start with one of two marks. -/
def Marked (x y : β) (s : List β) : Prop := ∃ r, s = x :: r ∨ s = y :: r

variable {f : α → List β}

theorem Reads.mono {P Q : List β → Prop} {a : α} (hPQ : ∀ s, Q s → P s) (h : Reads P f a) :
    Reads Q f a :=
  fun b s t hs ht heq => h b s t (hPQ s hs) (hPQ t ht) heq

/-- Two runs of marks of one class, each followed by a rest that does not start in the class. -/
theorem span_unique {p : β → Prop} {xs ys s t : List β} (hx : ∀ x ∈ xs, p x) (hy : ∀ y ∈ ys, p y)
    (hs : ∀ x ∈ s.head?, ¬ p x) (ht : ∀ x ∈ t.head?, ¬ p x) (h : xs ++ s = ys ++ t) :
    xs = ys ∧ s = t := by
  induction xs generalizing ys with
  | nil =>
    cases ys with
    | nil => exact ⟨rfl, h⟩
    | cons y ys =>
      obtain rfl : s = y :: (ys ++ t) := h
      exact absurd (hy y List.mem_cons_self) (hs y rfl)
  | cons x xs ih =>
    cases ys with
    | nil =>
      obtain rfl : x :: (xs ++ s) = t := h
      exact absurd (hx x List.mem_cons_self) (ht x rfl)
    | cons y ys =>
      obtain ⟨rfl, hrest⟩ := List.cons.inj h
      obtain ⟨rfl, hst⟩ := ih (fun z hz => hx z (List.mem_cons_of_mem x hz))
        (fun z hz => hy z (List.mem_cons_of_mem x hz)) hrest
      exact ⟨rfl, hst⟩

/-- Values closed by a mark that the text of none starts with. -/
theorem reads_closed {close : β} (hf : ∀ a, Reads Anything f a)
    (hhead : ∀ a, ∃ x r, f a = x :: r ∧ x ≠ close) (xs : List α) :
    Reads Anything (fun xs : List α => xs.flatMap f ++ [close]) xs := by
  have hne : ∀ (a : α) (s t : List β), f a ++ s ≠ close :: t := by
    intro a s t heq
    obtain ⟨x, r, hx, hxc⟩ := hhead a
    rw [hx] at heq
    exact hxc (List.cons.inj heq).1
  induction xs with
  | nil =>
    intro ys s t _ _ heq
    cases ys with
    | nil => exact ⟨rfl, List.append_cancel_left heq⟩
    | cons y ys =>
      simp only [List.flatMap_nil, List.nil_append, List.flatMap_cons, List.append_assoc,
        List.cons_append] at heq
      exact absurd heq.symm (hne y _ s)
  | cons x xs ih =>
    intro ys s t _ _ heq
    cases ys with
    | nil =>
      simp only [List.flatMap_nil, List.nil_append, List.flatMap_cons, List.append_assoc,
        List.cons_append] at heq
      exact absurd heq (hne x _ t)
    | cons y ys =>
      simp only [List.flatMap_cons, List.append_assoc] at heq
      obtain ⟨rfl, hrest⟩ := hf x y _ _ trivial trivial heq
      obtain ⟨rfl, hst⟩ := ih ys s t trivial trivial (by simpa using hrest)
      exact ⟨rfl, hst⟩

/-- What follows the first value of a separated list: the closing mark, or the separator and the
others. -/
def following (sep close : β) (f : α → List β) : List α → List β
  | [] => [close]
  | x :: xs => sep :: (f x ++ following sep close f xs)

theorem intercalate_cons (sep close : β) (f : α → List β) (x : α) (xs : List α) :
    [sep].intercalate ((x :: xs).map f) ++ [close] = f x ++ following sep close f xs := by
  induction xs generalizing x with
  | nil => simp [List.intercalate, following]
  | cons y ys ih =>
    rw [following, List.map_cons, List.map_cons, List.intercalate_cons_cons, List.append_assoc,
      List.append_assoc]
    have hy := ih y
    rw [List.map_cons] at hy
    rw [hy]
    rfl

theorem following_marked (sep close : β) (f : α → List β) (xs : List α) (s : List β) :
    Marked sep close (following sep close f xs ++ s) := by
  cases xs with
  | nil => exact ⟨s, Or.inr rfl⟩
  | cons x xs => exact ⟨_, Or.inl rfl⟩

theorem following_reads {sep close : β} (hsep : sep ≠ close) (xs : List α)
    (hf : ∀ x ∈ xs, Reads (Marked sep close) f x) : Reads Anything (following sep close f) xs := by
  induction xs with
  | nil =>
    intro ys s t _ _ heq
    cases ys with
    | nil => exact ⟨rfl, (List.cons.inj heq).2⟩
    | cons y ys => exact absurd (List.cons.inj heq).1.symm hsep
  | cons x xs ih =>
    intro ys s t _ _ heq
    cases ys with
    | nil => exact absurd (List.cons.inj heq).1 hsep
    | cons y ys =>
      have hrest : f x ++ (following sep close f xs ++ s) =
          f y ++ (following sep close f ys ++ t) := by
        rw [← List.append_assoc, ← List.append_assoc]
        exact (List.cons.inj heq).2
      obtain ⟨rfl, hys⟩ := hf x List.mem_cons_self y _ _ (following_marked sep close f xs s)
        (following_marked sep close f ys t) hrest
      obtain ⟨rfl, hst⟩ := ih (fun z hz => hf z (List.mem_cons_of_mem x hz)) ys s t trivial trivial
        hys
      exact ⟨rfl, hst⟩

/-- Values separated by one mark and closed by another that the text of none starts with. -/
theorem reads_separated {sep close : β} (hsep : sep ≠ close)
    (hhead : ∀ a, ∃ x r, f a = x :: r ∧ x ≠ close) (xs : List α)
    (hf : ∀ x ∈ xs, Reads (Marked sep close) f x) :
    Reads Anything (fun xs : List α => [sep].intercalate (xs.map f) ++ [close]) xs := by
  have hne : ∀ (a : α) (s t : List β), f a ++ s ≠ close :: t := by
    intro a s t heq
    obtain ⟨x, r, hx, hxc⟩ := hhead a
    rw [hx] at heq
    exact hxc (List.cons.inj heq).1
  have hnil : [sep].intercalate (([] : List α).map f) ++ [close] = [close] := rfl
  intro ys s t _ _ heq
  dsimp only at heq
  cases xs with
  | nil =>
    rw [hnil] at heq
    cases ys with
    | nil =>
      rw [hnil] at heq
      exact ⟨rfl, List.append_cancel_left heq⟩
    | cons y ys =>
      rw [intercalate_cons, List.append_assoc] at heq
      exact absurd heq.symm (hne y _ s)
  | cons x xs =>
    rw [intercalate_cons, List.append_assoc] at heq
    cases ys with
    | nil =>
      rw [hnil] at heq
      exact absurd heq (hne x _ t)
    | cons y ys =>
      rw [intercalate_cons, List.append_assoc] at heq
      obtain ⟨rfl, hrest⟩ := hf x List.mem_cons_self y _ _ (following_marked sep close f xs s)
        (following_marked sep close f ys t) heq
      obtain ⟨rfl, hst⟩ := following_reads hsep xs
        (fun z hz => hf z (List.mem_cons_of_mem x hz)) ys s t trivial trivial hrest
      exact ⟨rfl, hst⟩

end Reading
