import Mathlib.Data.List.Induction

/-!
# Decoding with replacement

A `Code` says which symbols make a character (`whole`) and which are the start of one (`start`).
`run` is an incremental decoder: it keeps a start until it is a character or cannot become one, and
writes `bad` for a start that breaks off. `decode` also ends what is kept.

* `Parted l rest`: `rest` does not go on with a character that `l` breaks off.
* `decode_append`: where they are parted, two pieces are decoded one after the other.
* `give_back`: without what the decoder keeps, the piece is decoded to the same text, and is parted
  from what was kept.
-/

namespace Lossy

structure Code (β γ : Type) where
  whole : List β → Option γ
  start : List β → Bool
  bad : γ

variable {β γ : Type} (C : Code β γ) {l rest kept : List β} {b : β}

namespace Code

/-- The symbol goes on with what is kept. -/
def continues (kept : List β) (b : β) : Bool :=
  !kept.isEmpty && ((C.whole (kept ++ [b])).isSome || C.start (kept ++ [b]))

def flush (kept : List β) : List γ := if kept.isEmpty then [] else [C.bad]

/-- A symbol between characters. -/
def first (b : β) : List γ × List β :=
  match C.whole [b] with
  | some c => ([c], [])
  | none => if C.start [b] then ([], [b]) else ([C.bad], [])

def push (kept : List β) (b : β) : List γ × List β :=
  if C.continues kept b then
    match C.whole (kept ++ [b]) with
    | some c => ([c], [])
    | none => ([], kept ++ [b])
  else (C.flush kept ++ (C.first b).1, (C.first b).2)

def step (s : List γ × List β) (b : β) : List γ × List β :=
  (s.1 ++ (C.push s.2 b).1, (C.push s.2 b).2)

def run (l : List β) : List γ × List β := l.foldl C.step ([], [])

def decode (l : List β) : List γ := (C.run l).1 ++ C.flush (C.run l).2

def Parted (l rest : List β) : Prop := ∀ b ∈ rest.head?, C.continues (C.run l).2 b = false

theorem run_snoc (l : List β) (b : β) : C.run (l ++ [b]) = C.step (C.run l) b := by
  rw [run, List.foldl_append]
  rfl

theorem step_append (out : List γ) (s : List γ × List β) (l : List β) :
    l.foldl C.step (out ++ s.1, s.2) = (out ++ (l.foldl C.step s).1, (l.foldl C.step s).2) := by
  induction l generalizing s with
  | nil => rfl
  | cons b l ih =>
    rw [List.foldl_cons, List.foldl_cons, ← ih, step, step, List.append_assoc]

/-- Where the pieces are parted, the second one is read as if nothing were before it. -/
theorem run_append (h : C.Parted l rest) (hne : rest ≠ []) :
    C.run (l ++ rest) = (C.decode l ++ (C.run rest).1, (C.run rest).2) := by
  cases rest with
  | nil => exact absurd rfl hne
  | cons b rest =>
    have hb : C.continues (C.run l).2 b = false := h b rfl
    have hfirst : C.step ([], []) b = C.first b := by simp [step, push, continues, flush]
    have hstep : C.step (C.run l) b = (C.decode l ++ (C.first b).1, (C.first b).2) := by
      simp [step, push, hb, decode]
    calc C.run (l ++ b :: rest) = rest.foldl C.step (C.step (C.run l) b) := by
          rw [run, List.foldl_append]
          rfl
      _ = (C.decode l ++ (C.run (b :: rest)).1, (C.run (b :: rest)).2) := by
          rw [hstep, step_append, run, List.foldl_cons, hfirst]

theorem decode_append (h : C.Parted l rest) :
    C.decode (l ++ rest) = C.decode l ++ C.decode rest := by
  cases rest with
  | nil => simp [decode, run, flush]
  | cons b rest =>
    rw [decode, C.run_append h (List.cons_ne_nil b rest), decode, decode, List.append_assoc]

theorem run_kept (l : List β) : (C.run l).2 = [] ∨ C.start (C.run l).2 := by
  induction l using List.reverseRecOn with
  | nil => exact Or.inl rfl
  | append_singleton l b ih =>
    rw [run_snoc, step, push]
    split
    case isTrue hc =>
      cases hw : C.whole ((C.run l).2 ++ [b]) with
      | some c => exact Or.inl rfl
      | none =>
        rw [continues, hw] at hc
        exact Or.inr (Bool.and_eq_true_iff.mp hc).2
    case isFalse =>
      rw [first]
      cases C.whole [b] with
      | some c => exact Or.inl rfl
      | none => cases hs : C.start [b] <;> simp [hs]

/-- Nothing is broken off where nothing is kept. -/
theorem parted_of_kept (h : (C.run l).2 = []) (rest : List β) : C.Parted l rest := fun b _ => by
  rw [h]
  rfl

theorem Parted.trans {C : Code β γ} {pre : List β} (h : C.Parted l (pre ++ rest))
    (h' : C.Parted pre rest) : C.Parted (l ++ pre) rest := by
  cases pre with
  | nil =>
    rw [List.append_nil]
    exact h
  | cons a pre =>
    have hl : C.Parted l (a :: pre) := fun b hb => h b hb
    rw [Parted, C.run_append hl (List.cons_ne_nil a pre)]
    exact h'

theorem give_back (l : List β) : ∃ pre, l = pre ++ (C.run l).2 ∧ C.decode pre = (C.run l).1 ∧
    ∀ more, C.Parted pre ((C.run l).2 ++ more) := by
  induction l using List.reverseRecOn with
  | nil => exact ⟨[], rfl, rfl, C.parted_of_kept rfl⟩
  | append_singleton l b ih =>
    obtain ⟨pre, hl, hdec, hpart⟩ := ih
    have hend : ∀ s, C.step (C.run l) b = (s, []) → ∃ pre, l ++ [b] = pre ++ [] ∧
        C.decode pre = s ∧ ∀ more, C.Parted pre ([] ++ more) := fun s hs =>
      ⟨l ++ [b], (List.append_nil _).symm, by rw [decode, run_snoc, hs]; simp [flush],
        C.parted_of_kept (by rw [run_snoc, hs])⟩
    rw [run_snoc]
    cases hc : C.continues (C.run l).2 b with
    | true =>
      cases hw : C.whole ((C.run l).2 ++ [b]) with
      | some c =>
        have hs : C.step (C.run l) b = ((C.run l).1 ++ [c], []) := by simp [step, push, hc, hw]
        rw [hs]
        exact hend _ hs
      | none =>
        have hs : C.step (C.run l) b = ((C.run l).1, (C.run l).2 ++ [b]) := by
          simp [step, push, hc, hw]
        rw [hs]
        refine ⟨pre, by rw [← List.append_assoc, ← hl], hdec, fun more => ?_⟩
        rw [List.append_assoc]
        exact hpart _
    | false =>
      have hs : C.step (C.run l) b = (C.decode l ++ (C.first b).1, (C.first b).2) := by
        simp [step, push, hc, decode]
      have hcases : (C.first b).2 = [] ∨ C.first b = ([], [b]) := by
        rw [first]
        cases C.whole [b] with
        | some c => exact Or.inl rfl
        | none => cases C.start [b] <;> simp
      rcases hcases with hf | hf
      · rw [hf] at hs
        rw [hs]
        exact hend _ hs
      · rw [hf, List.append_nil] at hs
        rw [hs]
        refine ⟨l, rfl, rfl, fun more a ha => ?_⟩
        obtain rfl : b = a := Option.some.inj ha
        exact hc

end Code

end Lossy
