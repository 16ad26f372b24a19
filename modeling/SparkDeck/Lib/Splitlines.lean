import Mathlib.Data.List.Chain
import Mathlib.Data.List.TakeWhile

/-!
# Lines with their terminators

`split` cuts a text after each terminator and keeps it: a terminator is one separator, or the pair
`cr`, `lf`. `split_flatten_iff` says when the lines of a text that is put together of pieces are
these pieces.
-/

/-- The separators of lines, two of which make one terminator. -/
structure Breaks (α : Type*) where
  sep : α → Bool
  cr : α
  lf : α
  sep_cr : sep cr
  sep_lf : sep lf
  ne : lf ≠ cr

namespace Breaks

variable {α : Type*} (E : Breaks α)

/-- A line without its terminator. -/
def body (l : List α) : List α := l.takeWhile fun c => !E.sep c

def term (l : List α) : List α := l.dropWhile fun c => !E.sep c

def Clear (l : List α) : Prop := ∀ c ∈ l, E.sep c = false

instance (l : List α) : Decidable (E.Clear l) := inferInstanceAs (Decidable (∀ c ∈ l, _))

def IsTerm (t : List α) : Prop := t = [] ∨ (∃ c, E.sep c ∧ t = [c]) ∨ t = [E.cr, E.lf]

/-- One line, with or without a terminator. -/
structure Single (l : List α) : Prop where
  ne : l ≠ []
  term : E.IsTerm (E.term l)

/-- A line ends before another one. -/
structure Apart (l m : List α) : Prop where
  ends : E.term l ≠ []
  pair : E.term l = [E.cr] → m.head? ≠ some E.lf

variable {E}

theorem body_append_term (l : List α) : E.body l ++ E.term l = l := List.takeWhile_append_dropWhile

theorem clear_body (l : List α) : E.Clear (E.body l) := fun c hc => by
  have h := List.mem_takeWhile_imp hc
  simpa using h

theorem Clear.append {a b : List α} (ha : E.Clear a) (hb : E.Clear b) : E.Clear (a ++ b) :=
  fun c hc => (List.mem_append.mp hc).elim (ha c) (hb c)

theorem Clear.left {a b : List α} (h : E.Clear (a ++ b)) : E.Clear a :=
  fun c hc => h c (List.mem_append_left b hc)

theorem Clear.right {a b : List α} (h : E.Clear (a ++ b)) : E.Clear b :=
  fun c hc => h c (List.mem_append_right a hc)

variable {a : List α}

theorem Clear.not (h : E.Clear a) : ∀ c ∈ a, (!E.sep c) := fun c hc => by
  rw [h c hc]
  rfl

theorem term_append (ha : E.Clear a) (t : List α) : E.term (a ++ t) = E.term t :=
  List.dropWhile_append_of_pos ha.not

theorem body_append (ha : E.Clear a) (t : List α) : E.body (a ++ t) = a ++ E.body t :=
  List.takeWhile_append_of_pos ha.not

theorem term_clear (ha : E.Clear a) : E.term a = [] :=
  List.dropWhile_eq_nil_iff.mpr ha.not

variable {l : List α}

theorem clear_of_term_nil (h : E.term l = []) : E.Clear l := by
  have hl := body_append_term (E := E) l
  rw [h, List.append_nil] at hl
  exact hl ▸ clear_body l

variable {c : α}

theorem term_cons_of_sep (hc : E.sep c) (l : List α) : E.term (c :: l) = c :: l := by
  simp [Breaks.term, hc]

theorem body_cons_of_sep (hc : E.sep c) (l : List α) : E.body (c :: l) = [] := by
  simp [Breaks.body, hc]

theorem term_cons_of_not (hc : E.sep c = false) (l : List α) : E.term (c :: l) = E.term l := by
  simp [Breaks.term, hc]

theorem term_cases (l : List α) :
    E.term l = [] ∨ ∃ c u, E.sep c ∧ E.term l = c :: u := by
  cases ht : E.term l with
  | nil => exact Or.inl rfl
  | cons c u =>
    have hdrop : List.dropWhile (fun c => !E.sep c) l = c :: u := ht
    have hhead := List.head_dropWhile_not (fun c => !E.sep c)
      (by rw [hdrop]; exact List.cons_ne_nil c u)
    exact Or.inr ⟨c, u, by simpa [hdrop] using hhead, rfl⟩

/-- A text ends its first line. -/
theorem body_append_of_term (h : E.term l ≠ []) (s : List α) : E.body (l ++ s) = E.body l := by
  conv_lhs => rw [← body_append_term (E := E) l, List.append_assoc, body_append (clear_body l)]
  rcases term_cases (E := E) l with ht | ⟨c, u, hc, ht⟩
  · exact absurd ht h
  · rw [ht, List.cons_append, body_cons_of_sep hc, List.append_nil]

/-- A terminator begins with a separator. -/
theorem IsTerm.cases {t : List α} (h : E.IsTerm t) : t = [] ∨ ∃ c u, E.sep c ∧ t = c :: u := by
  rcases h with rfl | ⟨c, hc, rfl⟩ | rfl
  · exact Or.inl rfl
  · exact Or.inr ⟨c, [], hc, rfl⟩
  · exact Or.inr ⟨E.cr, [E.lf], E.sep_cr, rfl⟩

theorem IsTerm.term {t : List α} (h : E.IsTerm t) : E.term t = t := by
  rcases h.cases with rfl | ⟨c, u, hc, rfl⟩
  · rfl
  · exact term_cons_of_sep hc u

/-- A character goes before a line unless it ends one by itself. -/
theorem Single.push (h : E.Single l) (hc : ¬(E.sep c ∧ ¬(c = E.cr ∧ l.head? = some E.lf))) :
    E.Single (c :: l) ∧ ∀ m, E.Apart l m → E.Apart (c :: l) m := by
  by_cases hsep : E.sep c
  · obtain ⟨rfl, hhead⟩ := not_not.mp fun hn => hc ⟨hsep, hn⟩
    -- the line begins with `lf`, and is nothing else
    obtain ⟨u, rfl⟩ : ∃ u, l = E.lf :: u := by
      cases l with
      | nil => cases hhead
      | cons d u => exact ⟨u, by rw [(Option.some.inj hhead : d = E.lf)]⟩
    have hterm : E.term (E.cr :: E.lf :: u) = E.cr :: E.lf :: u := term_cons_of_sep E.sep_cr _
    have hu : u = [] := by
      rcases h.term with ht | ⟨d, _, ht⟩ | ht
      · rw [term_cons_of_sep E.sep_lf] at ht
        cases ht
      · rw [term_cons_of_sep E.sep_lf] at ht
        exact (List.cons.inj ht).2
      · rw [term_cons_of_sep E.sep_lf] at ht
        exact absurd (List.cons.inj ht).1 E.ne
    subst hu
    refine ⟨⟨List.cons_ne_nil _ _, Or.inr (Or.inr hterm)⟩, fun m _ => ⟨?_, fun ht => ?_⟩⟩
    · rw [hterm]
      exact List.cons_ne_nil _ _
    · rw [hterm] at ht
      cases ht
  · have hterm : E.term (c :: l) = E.term l := term_cons_of_not (eq_false_of_ne_true hsep) l
    refine ⟨⟨List.cons_ne_nil _ _, hterm ▸ h.term⟩, fun m hm => ⟨?_, fun ht => ?_⟩⟩
    · rw [hterm]
      exact hm.ends
    · rw [hterm] at ht
      exact hm.pair ht

variable [DecidableEq α]

variable (E) in
def split : List α → List (List α)
  | [] => []
  | c :: cs =>
    if E.sep c ∧ ¬(c = E.cr ∧ cs.head? = some E.lf) then [c] :: split cs
    else
      match split cs with
      | [] => [[c]]
      | l :: ls => (c :: l) :: ls

/-! ## What `split` makes -/

theorem flatten_split (cs : List α) : (E.split cs).flatten = cs := by
  induction cs with
  | nil => rfl
  | cons c cs ih =>
    rw [split]
    split
    · rw [List.flatten_cons, ih]
      rfl
    · split
      · next hs =>
        rw [hs] at ih
        rw [← ih]
        rfl
      · next l ls hs =>
        rw [hs] at ih
        rw [← ih]
        rfl

variable {ls : List (List α)}

/-- The first line begins as the text does. -/
theorem head_of_split {cs l : List α} (hs : E.split cs = l :: ls) (hl : l ≠ []) :
    l.head? = cs.head? := by
  have hcs := flatten_split (E := E) cs
  rw [hs, List.flatten_cons] at hcs
  rw [← hcs, List.head?_append_of_ne_nil _ hl]

/-- The lines of a text are lines, each apart from the next one. -/
theorem split_spec (cs : List α) :
    (∀ l ∈ E.split cs, E.Single l) ∧ (E.split cs).IsChain E.Apart := by
  induction cs with
  | nil => exact ⟨fun l hl => (List.not_mem_nil hl).elim, .nil⟩
  | cons c cs ih =>
    obtain ⟨hsingle, hchain⟩ := ih
    rw [split]
    split
    case isTrue hc =>
      obtain ⟨hsep, hpair⟩ := hc
      have hterm : E.term [c] = [c] := term_cons_of_sep hsep []
      have hone : E.Single [c] := ⟨List.cons_ne_nil c [], Or.inr (Or.inl ⟨c, hsep, hterm⟩)⟩
      refine ⟨List.forall_mem_cons.mpr ⟨hone, hsingle⟩, ?_⟩
      cases hs : E.split cs with
      | nil => exact .singleton _
      | cons l ls =>
        rw [hs] at hsingle hchain
        refine List.isChain_cons_cons.mpr ⟨⟨by rw [hterm]; exact List.cons_ne_nil c [], ?_⟩, hchain⟩
        intro hcr hlf
        rw [hterm] at hcr
        rw [head_of_split hs (hsingle l List.mem_cons_self).ne] at hlf
        exact hpair ⟨(List.cons.inj hcr).1, hlf⟩
    case isFalse hc =>
      cases hs : E.split cs with
      | nil =>
        have hcs := flatten_split (E := E) cs
        rw [hs] at hcs
        subst hcs
        have hsep : E.sep c = false :=
          eq_false_of_ne_true fun hsep => hc ⟨hsep, fun hn => by cases hn.2⟩
        refine ⟨fun l hl => ?_, .singleton _⟩
        obtain rfl := List.mem_singleton.mp hl
        exact ⟨List.cons_ne_nil c [], Or.inl (term_cons_of_not hsep [])⟩
      | cons l ls =>
        rw [hs] at hsingle hchain
        have hl := hsingle l List.mem_cons_self
        rw [← head_of_split hs hl.ne] at hc
        obtain ⟨hone, hapart⟩ := hl.push hc
        refine ⟨List.forall_mem_cons.mpr ⟨hone, (List.forall_mem_cons.mp hsingle).2⟩, ?_⟩
        cases ls with
        | nil => exact .singleton _
        | cons m ls =>
          obtain ⟨hm, hrest⟩ := List.isChain_cons_cons.mp hchain
          exact List.isChain_cons_cons.mpr ⟨hapart m hm, hrest⟩

/-- A line ends where another text begins. -/
theorem split_append {l m : List α} (h : E.Single l) (hm : E.Apart l m) :
    E.split (l ++ m) = l :: E.split m := by
  obtain ⟨_, hterm⟩ := h
  obtain ⟨hends, hpair⟩ := hm
  rw [← body_append_term (E := E) l]
  have hclear := clear_body (E := E) l
  generalize E.body l = a at hclear ⊢
  induction a with
  | nil =>
    rw [List.nil_append]
    rcases hterm with ht | ⟨c, hc, ht⟩ | ht
    · exact absurd ht hends
    · have hno : ¬(c = E.cr ∧ m.head? = some E.lf) := by
        rintro ⟨rfl, hhead⟩
        exact hpair ht hhead
      rw [ht, List.singleton_append, split, if_pos ⟨hc, hno⟩]
    · rw [ht, List.cons_append, List.singleton_append, split, if_neg fun hn => hn.2 ⟨rfl, rfl⟩,
        split, if_pos ⟨E.sep_lf, fun hn => E.ne hn.1⟩]
  | cons c a ih =>
    have hc : E.sep c = false := hclear c List.mem_cons_self
    rw [List.cons_append, List.cons_append, split, if_neg fun hn => by simp [hc] at hn,
      ih fun x hx => hclear x (List.mem_cons_of_mem c hx)]

theorem split_single (h : E.Single l) : E.split l = [l] := by
  by_cases hends : E.term l = []
  · have hclear := clear_of_term_nil hends
    have hne := h.ne
    clear h hends
    induction l with
    | nil => exact absurd rfl hne
    | cons c a ih =>
      have hc : E.sep c = false := hclear c List.mem_cons_self
      rw [split, if_neg fun hn => by simp [hc] at hn]
      cases a with
      | nil => rfl
      | cons d a =>
        rw [ih (fun x hx => hclear x (List.mem_cons_of_mem c hx)) (List.cons_ne_nil d a)]
  · have hs := split_append h ⟨hends, nofun⟩ (m := [])
    rwa [List.append_nil] at hs

/-- When the lines of a text that is put together of pieces are these pieces. -/
theorem split_flatten_iff :
    E.split ls.flatten = ls ↔ (∀ l ∈ ls, E.Single l) ∧ ls.IsChain E.Apart := by
  refine ⟨fun h => h ▸ split_spec _, fun ⟨hsingle, hchain⟩ => ?_⟩
  induction ls with
  | nil => rfl
  | cons l ls ih =>
    obtain ⟨hl, hrest⟩ := List.forall_mem_cons.mp hsingle
    cases ls with
    | nil =>
      rw [List.flatten_cons, List.flatten_nil, List.append_nil]
      exact split_single hl
    | cons m ls =>
      obtain ⟨hm, hchain⟩ := List.isChain_cons_cons.mp hchain
      have hne := (hrest m List.mem_cons_self).ne
      rw [List.flatten_cons, split_append hl ⟨hm.ends, fun ht => ?_⟩, ih ⟨hrest, hchain⟩ hrest hchain]
      rw [List.flatten_cons, List.head?_append_of_ne_nil _ hne]
      exact hm.pair ht

/-- What has no break goes before the first line. -/
theorem split_push (ha : E.Clear a) (hne : a ≠ []) (s : List α) :
    E.split (a ++ s) = (a ++ (E.split s).head?.getD []) :: (E.split s).tail := by
  induction a with
  | nil => exact absurd rfl hne
  | cons c a ih =>
    have hc : E.sep c = false := ha c List.mem_cons_self
    rw [List.cons_append, split, if_neg fun hn => by simp [hc] at hn]
    by_cases hnil : a = []
    · subst hnil
      rw [List.nil_append]
      cases E.split s with
      | nil => rfl
      | cons l ls => rfl
    · rw [ih (fun x hx => ha x (List.mem_cons_of_mem c hx)) hnil]
      rfl

/-- A text begins with its first line. -/
theorem body_first {s l : List α} (h : E.split s = l :: ls) : E.body s = E.body l := by
  have hflat := flatten_split (E := E) s
  have hchain := (split_spec (E := E) s).2
  rw [h] at hflat hchain
  rw [← hflat, List.flatten_cons]
  by_cases hends : E.term l = []
  · cases ls with
    | nil => rw [List.flatten_nil, List.append_nil]
    | cons m ls => exact absurd hends (List.isChain_cons_cons.mp hchain).1.ends
  · exact body_append_of_term hends _

/-- Another text is put under the first lines of a text. -/
theorem split_under {t l s : List α} {above below : List (List α)}
    (h : E.split t = above ++ l :: below) (hs : s.head? ≠ some E.lf) :
    E.split (above.flatten ++ s) = above ++ E.split s := by
  obtain ⟨hsingle, hchain⟩ := split_spec (E := E) t
  rw [h] at hsingle hchain
  obtain ⟨habove, _, hlast⟩ := List.isChain_append.mp hchain
  obtain ⟨hsingle', hchain'⟩ := split_spec (E := E) s
  have hflat : (above ++ E.split s).flatten = above.flatten ++ s := by
    rw [List.flatten_append, flatten_split]
  rw [← hflat]
  refine split_flatten_iff.mpr ⟨fun m hm => ?_, List.isChain_append.mpr ⟨habove, hchain', ?_⟩⟩
  · rcases List.mem_append.mp hm with hm | hm
    · exact hsingle m (List.mem_append_left _ hm)
    · exact hsingle' m hm
  · intro x hx y hy
    refine ⟨(hlast x hx l rfl).ends, fun _ => ?_⟩
    cases hsp : E.split s with
    | nil =>
      rw [hsp] at hy
      cases hy
    | cons z zs =>
      rw [hsp] at hy hsingle'
      cases hy
      rw [head_of_split hsp (hsingle' _ List.mem_cons_self).ne]
      exact hs

end Breaks
