import Mathlib.Data.List.DropRight
import SparkDeck.EnvFile.Text

/-!
# Errors that only report a missing container

`_only_missing_container_errors` of `service.py`. An aggregated error is what a deployment or a stop
has failed with, its causes joined with `"; "`.

* `word` is `\w`, which decides where `\b` matches.
* `fragments_aggregate`: the fragments of an aggregated error are those of its causes, in order.
* `onlyMissing_aggregate`: so it reports nothing but absences exactly if each of its causes does.
-/

namespace SparkDeck.Occupancy

open EnvFile (isSpace)

/-- `str.strip` -/
def strip (text : List Char) : List Char := (text.dropWhile isSpace).rdropWhile isSpace

/-- What `re.IGNORECASE` compares with the letter of a pattern. -/
def fold (c : Char) : Char :=
  if c = '\u017f' then 's'
  else if c = '\u0130' ∨ c = '\u0131' then 'i'
  else if c = '\u212a' then 'k'
  else c.toLower

section Pattern

variable (word : Char → Bool)

/-- `\b` between two characters, of which the text may lack one. -/
def boundary (before after : Option Char) : Bool := before.any word != after.any word

/-- `\bpattern\b` matches where the text goes on with `text`. -/
def matchesAt (before : Option Char) (text pattern : List Char) : Bool :=
  let found := text.take pattern.length
  found.map fold = pattern && boundary word before text.head? &&
    boundary word found.getLast? (text.drop pattern.length).head?

def searchFrom (patterns : List (List Char)) : Option Char → List Char → Bool
  | _, [] => false
  | before, c :: cs =>
    patterns.any (matchesAt word before (c :: cs)) || searchFrom patterns (some c) cs

/-- `_MISSING_CONTAINER_ERROR_MARKERS` -/
def markers : List (List Char) :=
  ["no such container".toList, "managed container not found".toList,
    "cluster member not found".toList]

/-- `_ABSENCE_FRAGMENT.search` -/
def namesAbsence (fragment : List Char) : Bool := searchFrom word markers none fragment

end Pattern

/-- `_ERROR_FRAGMENT_SEPARATOR` -/
def isSeparator (c : Char) : Bool := c = ';' || c = '\n'

/-- The pieces between separators, blank ones left out. -/
def fragments (text : List Char) : List (List Char) :=
  ((text.splitOnP isSeparator).map strip).filter (· ≠ [])

/-- `_only_missing_container_errors` -/
def onlyMissing (word : Char → Bool) (error : List Char) : Bool :=
  let text := strip error
  if text = [] then false
  else fragments text ≠ [] && (fragments text).all (namesAbsence word)

/-- `"; ".join(causes)` -/
def aggregate (causes : List (List Char)) : List Char := "; ".toList.intercalate causes

/-! ## White space around a text -/

section Fragments

variable {c : Char} {text rest : List Char}

theorem strip_cons (h : isSpace c) : strip (c :: text) = strip text := by
  unfold strip
  rw [List.dropWhile_cons_of_pos h]

theorem strip_snoc (h : isSpace c) : strip (text ++ [c]) = strip text := by
  unfold strip
  rw [List.dropWhile_append]
  split
  case isTrue hempty =>
    rw [List.isEmpty_iff.mp hempty, List.dropWhile_cons_of_pos h, List.dropWhile_nil]
  case isFalse => rw [List.rdropWhile_concat_pos _ _ _ h]

theorem fragments_nil : fragments [] = [] := rfl

theorem fragments_append_cons (h : isSeparator c) :
    fragments (text ++ c :: rest) = fragments text ++ fragments rest := by
  unfold fragments
  rw [List.splitOnP_append_cons _ _ h, List.map_append, List.filter_append]

theorem fragments_cons (h : isSpace c) : fragments (c :: text) = fragments text := by
  cases hsep : isSeparator c with
  | true =>
    calc fragments (c :: text) = fragments [] ++ fragments text :=
          @fragments_append_cons c [] text hsep
      _ = fragments text := by rw [fragments_nil, List.nil_append]
  | false =>
    obtain ⟨piece, pieces, hpieces⟩ :=
      List.exists_cons_of_ne_nil (List.splitOnP_ne_nil isSeparator text)
    unfold fragments
    rw [List.splitOnP_cons_eq_if_modifyHead, if_neg (Bool.not_eq_true _ ▸ hsep), hpieces,
      List.modifyHead_cons, List.map_cons, strip_cons h, List.map_cons]

/-- A character that is no separator goes to the last piece. -/
theorem splitOnP_snoc (h : isSeparator c = false) (text : List Char) :
    ∃ pieces piece, text.splitOnP isSeparator = pieces ++ [piece] ∧
      (text ++ [c]).splitOnP isSeparator = pieces ++ [piece ++ [c]] := by
  induction text with
  | nil => exact ⟨[], [], rfl, List.splitOnP_eq_singleton (by simpa using h)⟩
  | cons x text ih =>
    obtain ⟨pieces, piece, hold, hnew⟩ := ih
    rw [List.cons_append, List.splitOnP_cons_eq_if_modifyHead,
      List.splitOnP_cons_eq_if_modifyHead, hold, hnew]
    split
    · exact ⟨[] :: pieces, piece, rfl, rfl⟩
    · cases pieces with
      | nil => exact ⟨[], x :: piece, rfl, rfl⟩
      | cons first pieces => exact ⟨(x :: first) :: pieces, piece, rfl, rfl⟩

theorem fragments_snoc (h : isSpace c) : fragments (text ++ [c]) = fragments text := by
  cases hsep : isSeparator c with
  | true =>
    calc fragments (text ++ [c]) = fragments text ++ fragments [] := fragments_append_cons hsep
      _ = fragments text := by rw [fragments_nil, List.append_nil]
  | false =>
    obtain ⟨pieces, piece, hold, hnew⟩ := splitOnP_snoc hsep text
    unfold fragments
    rw [hold, hnew, List.map_append, List.map_append, List.map_singleton, List.map_singleton,
      strip_snoc h]

theorem fragments_dropWhile : fragments (text.dropWhile isSpace) = fragments text := by
  induction text with
  | nil => rfl
  | cons c text ih =>
    rw [List.dropWhile_cons]
    split
    case isTrue h => rw [ih, fragments_cons h]
    case isFalse => rfl

theorem fragments_rdropWhile : fragments (text.rdropWhile isSpace) = fragments text := by
  induction text using List.reverseRecOn with
  | nil => rfl
  | append_singleton text c ih =>
    rw [List.rdropWhile_concat]
    split
    case isTrue h => rw [ih, fragments_snoc h]
    case isFalse => rfl

theorem fragments_strip : fragments (strip text) = fragments text :=
  fragments_rdropWhile.trans fragments_dropWhile

end Fragments

/-! ## Aggregated errors -/

theorem fragments_aggregate (causes : List (List Char)) :
    fragments (aggregate causes) = causes.flatMap fragments := by
  induction causes with
  | nil => rfl
  | cons cause causes ih =>
    cases causes with
    | nil =>
      rw [List.flatMap_singleton]
      exact congrArg fragments (List.append_nil cause)
    | cons next causes =>
      calc fragments (aggregate (cause :: next :: causes))
          = fragments (cause ++ ';' :: ' ' :: aggregate (next :: causes)) := rfl
        _ = fragments cause ++ fragments (aggregate (next :: causes)) := by
          rw [fragments_append_cons rfl, fragments_cons rfl]
        _ = (cause :: next :: causes).flatMap fragments := by rw [ih]; rfl

theorem onlyMissing_iff {word : Char → Bool} {error : List Char} :
    onlyMissing word error ↔
      fragments error ≠ [] ∧ ∀ f ∈ fragments error, namesAbsence word f := by
  unfold onlyMissing
  dsimp only
  rw [fragments_strip]
  split
  case isTrue h =>
    have hnone : fragments error = [] := by rw [← fragments_strip, h, fragments_nil]
    exact iff_of_false Bool.false_ne_true fun hf => hf.1 hnone
  case isFalse =>
    rw [Bool.and_eq_true, decide_eq_true_iff, List.all_eq_true]

/-- An aggregated error reports only absences exactly if all of its causes do. -/
theorem onlyMissing_aggregate {word : Char → Bool} {causes : List (List Char)} :
    onlyMissing word (aggregate causes) ↔
      (∃ cause ∈ causes, fragments cause ≠ []) ∧
      ∀ cause ∈ causes, ∀ f ∈ fragments cause, namesAbsence word f := by
  rw [onlyMissing_iff, fragments_aggregate]
  refine and_congr ?_ ?_
  · rw [ne_eq, List.flatMap_eq_nil_iff]
    push Not
    rfl
  · constructor
    · intro h cause hc f hf
      exact h f (List.mem_flatMap.mpr ⟨cause, hc, hf⟩)
    · intro h f hf
      obtain ⟨cause, hc, hf⟩ := List.mem_flatMap.mp hf
      exact h cause hc f hf

end SparkDeck.Occupancy
