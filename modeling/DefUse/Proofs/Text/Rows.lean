/-
# `Proofs.Text.Rows` — texts made of rows

The rows of a text are what stands between its line feeds.  Where a text was put
together from lines, each line feed inside one of them makes a row more
(`length_rows_intercalate`), so that its rows are the lines just if no line has one
(`rows_intercalate_iff`).

The lines of a text (`Text.lines`) are not quite its rows, as carriage returns are cut off
and the end of the text makes no line; they have no line feed either
(`count_of_mem_lines`).
-/
import Mathlib
import DefUse.Text.Lines

namespace DefUse.Text

/-! ## Counting characters -/

/-- How often a character stands in a text. -/
def count (c : Char) (text : String) : Nat :=
  text.toList.count c

variable {c : Char} {text : String}

@[simp]
theorem count_append (c : Char) (text more : String) :
    count c (text ++ more) = count c text + count c more := by
  rw [count, String.toList_append, List.count_append]
  rfl

theorem count_eq_zero : count c text = 0 ↔ c ∉ text.toList :=
  List.count_eq_zero

theorem sum_count_eq_zero {texts : List String} :
    (texts.map (count c)).sum = 0 ↔ ∀ text ∈ texts, count c text = 0 := by
  rw [List.sum_eq_zero_iff_forall_eq_nat, List.forall_mem_map]

theorem count_join (c : Char) (texts : List String) :
    count c (String.join texts) = (texts.map (count c)).sum := by
  rw [count, String.toList_join, List.count_flatMap]
  rfl

/-- Between the lines stand as many separators as there are lines after the first. -/
theorem count_intercalate (c : Char) (separator first : String) (rest : List String) :
    count c (separator.intercalate (first :: rest)) =
      count c first + (rest.map (count c)).sum + rest.length * count c separator := by
  induction rest generalizing first with
  | nil => simp
  | cons second rest ih =>
      rw [String.intercalate_cons_cons, count_append, count_append, ih second]
      simp only [List.map_cons, List.sum_cons, List.length_cons, Nat.add_mul]
      omega

/-! ## Rows -/

/-- What stands between the line feeds of a text. -/
def rows (text : String) : List String :=
  (text.toList.splitOn '\n').map String.ofList

theorem length_rows (text : String) : (rows text).length = count '\n' text + 1 := by
  rw [rows, List.length_map, count]
  induction text.toList with
  | nil => rfl
  | cons c rest ih =>
      rw [List.splitOn_cons_eq_if_modifyHead, List.count_cons]
      split
      · rw [List.length_cons, ih]
      · rw [List.length_modifyHead, ih]

theorem length_rows_intercalate {lines : List String} (h : lines ≠ []) :
    (rows ("\n".intercalate lines)).length =
      lines.length + (lines.map (count '\n')).sum := by
  obtain ⟨first, rest, rfl⟩ := List.exists_cons_of_ne_nil h
  have hbreak : count '\n' "\n" = 1 := rfl
  rw [length_rows, count_intercalate, hbreak, List.map_cons, List.sum_cons, List.length_cons]
  omega

/-- The rows of a text are the lines it was put together from, if no line has a line feed. -/
theorem rows_intercalate_iff {lines : List String} (h : lines ≠ []) :
    rows ("\n".intercalate lines) = lines ↔ ∀ line ∈ lines, count '\n' line = 0 := by
  constructor
  · intro hrows line hline
    have hlength := length_rows_intercalate h
    rw [hrows] at hlength
    have hsum : (lines.map (count '\n')).sum = 0 := by omega
    exact sum_count_eq_zero.mp hsum line hline
  · intro hlines
    have hbreak : "\n".toList = ['\n'] := rfl
    rw [rows, String.toList_intercalate, hbreak, List.splitOn_intercalate, List.map_map]
    · simp
    · simpa [count_eq_zero] using hlines
    · simpa using h

/-! ## Lines -/

theorem count_endedLine {before : List Char} (h : '\n' ∉ before) :
    count '\n' (endedLine before) = 0 := by
  rw [count_eq_zero]
  unfold endedLine
  split
  · rename_i rest
    have hrest : '\n' ∉ rest := fun hmem => h (List.mem_cons_of_mem _ hmem)
    simpa using hrest
  · simpa using h

/-- A line feed ends a line and is no part of it. -/
theorem count_of_mem_lines {line : String} (h : line ∈ lines text) : count '\n' line = 0 := by
  have hall : ∀ before chars : List Char, '\n' ∉ before →
      ∀ line ∈ linesFrom before chars, count '\n' line = 0 := by
    intro before chars hbefore
    fun_induction linesFrom before chars with
    | case1 => simp
    | case2 before =>
        intro line hline
        rw [List.mem_singleton.mp hline, count_eq_zero]
        simpa using hbefore
    | case3 before rest ih =>
        intro line hline
        rcases List.mem_cons.mp hline with rfl | hline
        · exact count_endedLine hbefore
        · exact ih List.not_mem_nil line hline
    | case4 before c rest hne ih =>
        refine ih ?_
        intro hmem
        rcases List.mem_cons.mp hmem with rfl | hmem
        · exact hne rfl
        · exact hbefore hmem
  exact hall [] text.toList List.not_mem_nil line h

end DefUse.Text
