/-
# `Proofs.Text.Cut` — cutting at a character

A list that has a character is cut at its first occurrence by `List.takeWhile` and
`List.dropWhile`; if it does not have the character, nothing is left to drop to.  To cut at
the last occurrence, the list is reversed.
-/
import Mathlib.Data.List.TakeWhile

namespace DefUse.Text

variable {separator : Char} {chars before : List Char}

theorem ne_of_notMem (h : separator ∉ chars) : ∀ c ∈ chars, decide (c ≠ separator) = true := by
  intro c hc
  refine decide_eq_true ?_
  rintro rfl
  exact h hc

theorem takeWhile_ne_append (h : separator ∉ before) (after : List Char) :
    (before ++ separator :: after).takeWhile (· ≠ separator) = before := by
  rw [List.takeWhile_append_of_pos (ne_of_notMem h)]
  simp

theorem dropWhile_ne_append (h : separator ∉ before) (after : List Char) :
    (before ++ separator :: after).dropWhile (· ≠ separator) = separator :: after := by
  rw [List.dropWhile_append_of_pos (ne_of_notMem h)]
  simp

theorem dropWhile_ne_eq_nil_iff : chars.dropWhile (· ≠ separator) = [] ↔ separator ∉ chars := by
  rw [List.dropWhile_eq_nil_iff]
  constructor
  · intro h hmem
    simpa using h separator hmem
  · exact ne_of_notMem

end DefUse.Text
