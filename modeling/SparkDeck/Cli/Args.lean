import Mathlib.Data.List.Basic

/-!
# Options of an argument list

`_without_cli_options` and `_cli_option` (`manager.py`). An argument is a string; `partition` splits
it at its first equals sign.
-/

namespace SparkDeck.Cli

/-- `token.partition("=")`: the key, and what follows the sign if there is one. -/
def partition (token : String) : String × Option String :=
  match token.toList.dropWhile (· ≠ '=') with
  | [] => (token, none)
  | _ :: inline => (String.ofList (token.toList.takeWhile (· ≠ '=')), some (String.ofList inline))

/-- `token.split("=", 1)[0]` -/
def key (token : String) : String := (partition token).1

/-- `"=" in token` -/
def hasInline (token : String) : Bool := (partition token).2.isSome

/-- `token.startswith("-")` -/
def isDash (token : String) : Bool := ['-'].isPrefixOf token.toList

/-- `token.startswith("--")` -/
def isLong (token : String) : Bool := ['-', '-'].isPrefixOf token.toList

/-- The loop of `_cli_option`; `found` is the last value so far. -/
def cliOption.loop (names : List String) : Option String → List String → Option String
  | found, [] => found
  | found, token :: args =>
    if (partition token).1 ∈ names then
      match (partition token).2 with
      | some inline => loop names (some inline) args
      | none =>
        match args with
        | next :: _ => if isDash next then loop names found args else loop names (some next) args
        | [] => loop names found args
    else loop names found args

/-- `_cli_option`: the last value given for one of `names`. -/
def cliOption (args names : List String) : Option String := cliOption.loop names none args

/-- `_without_cli_options`: an option goes with the argument behind it, unless its value is inline
or that argument begins with two dashes. -/
def withoutCliOptions (names : List String) : List String → List String
  | [] => []
  | value :: args =>
    if key value ∈ names then
      match args with
      | [] => []
      | next :: rest =>
        if !hasInline value && !isLong next then withoutCliOptions names rest
        else withoutCliOptions names (next :: rest)
    else value :: withoutCliOptions names args

/-- One more option at the end, of another name, says nothing. -/
theorem cliOption_append {names args : List String} {a : String} (hd : isDash a)
    (hk : (partition a).1 ∉ names) : cliOption (args ++ [a]) names = cliOption args names := by
  have hloop : ∀ found, cliOption.loop names found (args ++ [a]) =
      cliOption.loop names found args := by
    induction args with
    | nil =>
      intro found
      simp only [List.nil_append, cliOption.loop, if_neg hk]
    | cons token args ih =>
      intro found
      cases args with
      | nil =>
        simp only [List.cons_append, List.nil_append, cliOption.loop, if_neg hk, if_pos hd]
      | cons next args =>
        have ih' := ih
        simp only [List.cons_append] at ih'
        rw [List.cons_append, List.cons_append,
          cliOption.loop.eq_def names found (token :: next :: (args ++ [a])),
          cliOption.loop.eq_def names found (token :: next :: args)]
        simp only [ih']
  exact hloop none

/-! ## What is left of the arguments -/

/-- The arguments that are neither one of these options nor the value of one: an argument behind such
an option is its value, unless the option has one inline or the argument begins with two dashes.
`open_` says that the argument before is an option that waits for its value. -/
def others (names : List String) : Bool → List String → List String
  | _, [] => []
  | waits, value :: args =>
    if waits && !isLong value then others names false args
    else if key value ∈ names then others names (!hasInline value) args
    else value :: others names false args

/-- The value of the last of these options: inline, or the argument behind it. -/
def effective (names : List String) : List String → Option String
  | [] => none
  | token :: args =>
    match effective names args with
    | some value => some value
    | none =>
      if key token ∈ names then
        match (partition token).2 with
        | some inline => some inline
        | none => args.head?
      else none

variable {names args rest : List String} {a v : String}

/-- An argument that is no value is read in the same way whether or not one is waited for. -/
theorem others_waits {w : Bool} (h : (w && !isLong a) = false) :
    others names w (a :: args) = others names false (a :: args) := by
  rw [others, others, h, Bool.false_and]

/-- **The loop leaves the other arguments.** -/
theorem withoutCliOptions_eq (names args : List String) :
    withoutCliOptions names args = others names false args := by
  induction args using withoutCliOptions.induct names with
  | case1 => rfl
  | case2 value hk =>
    rw [withoutCliOptions, if_pos hk, others, Bool.false_and, if_neg Bool.false_ne_true, if_pos hk]
    rfl
  | case3 value hk next rest hv ih =>
    rw [withoutCliOptions, if_pos hk, if_pos hv, ih, others, Bool.false_and,
      if_neg Bool.false_ne_true, if_pos hk, others, if_pos hv]
  | case4 value hk next rest hv ih =>
    rw [withoutCliOptions, if_pos hk, if_neg hv, ih, others.eq_2 names false value, Bool.false_and,
      if_neg Bool.false_ne_true, if_pos hk, others_waits ((Bool.not_eq_true _).mp hv)]
  | case5 value rest hk ih =>
    rw [others, Bool.false_and, if_neg Bool.false_ne_true, if_neg hk, ← ih]
    cases rest with
    | nil => simp only [withoutCliOptions, if_neg hk]
    | cons next rest => rw [withoutCliOptions, if_neg hk]

/-- None of the options is left. -/
theorem others_apart {w : Bool} (h : a ∈ others names w args) : key a ∉ names := by
  induction args generalizing w with
  | nil => cases h
  | cons value args ih =>
    rw [others] at h
    split at h
    · exact ih h
    · split at h
      case isTrue => exact ih h
      case isFalse hk =>
        rcases List.mem_cons.mp h with rfl | h
        · exact hk
        · exact ih h

/-! ## The effective value -/

/-- An argument that is not one of the options says nothing. -/
theorem effective_skip (h : key a ∉ names) :
    effective names (a :: args) = effective names args := by
  rw [effective]
  cases effective names args with
  | some value => rfl
  | none => rw [if_neg h]

theorem effective_none (h : ∀ b ∈ args, key b ∉ names) : effective names args = none := by
  induction args with
  | nil => rfl
  | cons b args ih =>
    rw [effective_skip (h b List.mem_cons_self)]
    exact ih fun c hc => h c (List.mem_cons_of_mem b hc)

theorem effective_append (h : ∀ b ∈ rest, key b ∉ names) :
    effective names (rest ++ args) = effective names args := by
  induction rest with
  | nil => rfl
  | cons b rest ih =>
    rw [List.cons_append, effective_skip (h b List.mem_cons_self)]
    exact ih fun c hc => h c (List.mem_cons_of_mem b hc)

/-! ## Keys -/

/-- What does not begin with a dash is no option. -/
theorem key_plain (h : isDash a = false) : isDash (key a) = false := by
  unfold key partition
  split
  · exact h
  · next c inline hd =>
    unfold isDash at h ⊢
    rw [String.toList_ofList]
    cases ha : a.toList with
    | nil => rfl
    | cons x l =>
      rw [ha] at h
      rw [List.takeWhile_cons]
      split
      · exact h
      · rfl

theorem not_mem_of_plain (h : isDash a = false) (hn : ∀ b ∈ names, isDash b = true) :
    key a ∉ names := by
  intro hm
  have hk := key_plain h
  rw [hn _ hm] at hk
  cases hk

/-- A number is no option. -/
theorem isDash_toString (n : ℕ) : isDash (toString n) = false := by
  unfold isDash
  rw [Nat.toString_eq_ofList_toDigits, String.toList_ofList]
  cases hd : Nat.toDigits 10 n with
  | nil => rfl
  | cons c l =>
    have hc : c.isDigit :=
      Nat.isDigit_of_mem_toDigits (by decide) (by decide) (hd ▸ List.mem_cons_self)
    have hne : c ≠ '-' := by
      rintro rfl
      cases hc
    simp [List.isPrefixOf, Ne.symm hne]

theorem isDash_append {b : String} (h : isDash a = false) (hb : isDash b = false) :
    isDash (a ++ b) = false := by
  unfold isDash at h hb ⊢
  rw [String.toList_append]
  cases ha : a.toList with
  | nil => exact hb
  | cons c l =>
    rw [ha] at h
    simpa [List.isPrefixOf] using h

/-! ## Pairs of an option and a value -/

/-- The arguments of a list of options with their values. -/
def flat (pairs : List (String × String)) : List String := pairs.flatMap fun p => [p.1, p.2]

/-- The value of the last of these options among the pairs. -/
def lastOf (names : List String) : List (String × String) → Option String
  | [] => none
  | p :: pairs =>
    match lastOf names pairs with
    | some value => some value
    | none => if key p.1 ∈ names then some p.2 else none

/-- The effective value among options whose values are not read as options. -/
theorem effective_flat {pairs : List (String × String)} (hn : ∀ b ∈ names, isDash b)
    (hp : ∀ p ∈ pairs, isDash p.2 = false ∧ (partition p.1).2 = none)
    (ht : ∀ b ∈ rest, key b ∉ names) :
    effective names (flat pairs ++ rest) = lastOf names pairs := by
  induction pairs with
  | nil => exact effective_none ht
  | cons p pairs ih =>
    obtain ⟨hplain, hinline⟩ := hp p List.mem_cons_self
    have hrest := ih fun q hq => hp q (List.mem_cons_of_mem p hq)
    have hflat : flat (p :: pairs) ++ rest = p.1 :: p.2 :: (flat pairs ++ rest) := rfl
    have hvalue : effective names (p.2 :: (flat pairs ++ rest)) =
        effective names (flat pairs ++ rest) := effective_skip (not_mem_of_plain hplain hn)
    rw [hflat, effective, hvalue, hrest, lastOf]
    cases lastOf names pairs with
    | some value => rfl
    | none =>
      rw [hinline]
      rfl

end SparkDeck.Cli
