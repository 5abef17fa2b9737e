/-
# `Proofs.Text.Blank` — what is left of a text without white space at its ends

Of a text with white space at its ends, the middle is what begins and ends with something
else (`Trimmed`).  There is one middle only, and it is what trimming gives
(`trim_eq_iff`); of white space alone, nothing is left.
-/
import Mathlib.Data.List.TakeWhile
import DefUse.Text.Blank

namespace DefUse.Text

/-- The middle is the text without the white space at its ends. -/
structure Trimmed (text middle : String) : Prop where
  parts : ∃ left right, text.toList = left ++ middle.toList ++ right ∧
    (∀ c ∈ left, isBlank c = true) ∧ ∀ c ∈ right, isBlank c = true
  first : ∀ c ∈ middle.toList.head?, isBlank c = false
  last : ∀ c ∈ middle.toList.getLast?, isBlank c = false

variable {left rest right middle : List Char}

theorem head?_dropWhile_isBlank (chars : List Char) :
    ∀ c ∈ (chars.dropWhile isBlank).head?, isBlank c = false := by
  intro c hc
  have hfirst := List.head?_dropWhile_not isBlank chars
  rw [Option.mem_def.mp hc] at hfirst
  exact hfirst

/-- White space in front is dropped, up to the first other character. -/
theorem dropWhile_isBlank_append (hleft : ∀ c ∈ left, isBlank c = true)
    (hrest : ∀ c ∈ rest.head?, isBlank c = false) :
    (left ++ rest).dropWhile isBlank = rest := by
  rw [List.dropWhile_append_of_pos hleft]
  cases rest with
  | nil => rfl
  | cons c rest => simp [hrest c rfl]

theorem trimChars_append (hleft : ∀ c ∈ left, isBlank c = true)
    (hright : ∀ c ∈ right, isBlank c = true) (hfirst : ∀ c ∈ middle.head?, isBlank c = false)
    (hlast : ∀ c ∈ middle.getLast?, isBlank c = false) :
    trimChars (left ++ middle ++ right) = middle := by
  cases middle with
  | nil =>
      -- without a middle, all is dropped in front
      have hnone : (left ++ [] ++ right).dropWhile isBlank = [] := by
        rw [List.dropWhile_eq_nil_iff, List.append_nil]
        intro c hc
        exact (List.mem_append.mp hc).elim (hleft c) (hright c)
      rw [trimChars, hnone]
      rfl
  | cons c middle =>
      have hfront : (left ++ (c :: middle ++ right)).dropWhile isBlank = c :: middle ++ right :=
        dropWhile_isBlank_append hleft (by simpa using hfirst c rfl)
      have hback : (right.reverse ++ (c :: middle).reverse).dropWhile isBlank =
          (c :: middle).reverse := by
        refine dropWhile_isBlank_append (by simpa using hright) ?_
        rwa [List.head?_reverse]
      rw [trimChars, List.append_assoc, hfront, List.reverse_append, hback, List.reverse_reverse]

theorem trimmed_trim (text : String) : Trimmed text (trim text) := by
  have hlast := head?_dropWhile_isBlank (text.toList.dropWhile isBlank).reverse
  have hsplit := List.takeWhile_append_dropWhile (p := isBlank) (l := text.toList)
  have hsplit' := List.takeWhile_append_dropWhile (p := isBlank)
    (l := (text.toList.dropWhile isBlank).reverse)
  -- the white space in front, then what trimming leaves, then the white space behind
  have hparts : trimChars text.toList ++
      ((text.toList.dropWhile isBlank).reverse.takeWhile isBlank).reverse =
        text.toList.dropWhile isBlank := by
    rw [trimChars, ← List.reverse_append, hsplit', List.reverse_reverse]
  refine ⟨⟨text.toList.takeWhile isBlank,
    ((text.toList.dropWhile isBlank).reverse.takeWhile isBlank).reverse, ?_, ?_, ?_⟩, ?_, ?_⟩
  · rw [trim, String.toList_ofList, List.append_assoc, hparts, hsplit]
  · exact List.all_eq_true.mp List.all_takeWhile
  · intro c hc
    exact List.all_eq_true.mp List.all_takeWhile c (List.mem_reverse.mp hc)
  · intro c hc
    rw [trim, String.toList_ofList] at hc
    refine head?_dropWhile_isBlank text.toList c ?_
    rw [← hparts]
    simp [Option.mem_def.mp hc]
  · intro c hc
    rw [trim, String.toList_ofList, trimChars, List.getLast?_reverse] at hc
    exact hlast c hc

/-- Trimming gives the middle, and there is only one. -/
theorem trim_eq_iff {text middle : String} : trim text = middle ↔ Trimmed text middle := by
  constructor
  · rintro rfl
    exact trimmed_trim text
  · rintro ⟨⟨left, right, hparts, hleft, hright⟩, hfirst, hlast⟩
    rw [trim, hparts, trimChars_append hleft hright hfirst hlast, String.ofList_toList]

end DefUse.Text
