/-
# `Proofs.Text.Numeral` — texts that end in a number

Labels and names are made by putting a number after a text.  Two facts tell how far
the result can be taken apart again.  After a text without digits the number can be
read off (`eq_of_append_numeral`); after the only underscore of a text, so can the
text before it (`eq_of_append_underscore`).

Without either, the text in front is known up to the digits at its end only: `x1`
with `2` and `x` with `12` are the same (`append_numeral_eq`).
-/
import Mathlib.Data.List.Basic

namespace DefUse.Text

theorem toList_numeral (n : Nat) : (toString n).toList = Nat.toDigits 10 n := by
  rw [Nat.toString_eq_repr, Nat.toList_repr]

theorem isDigit_of_mem_numeral {n : Nat} {c : Char} (h : c ∈ (toString n).toList) :
    c.isDigit = true := by
  rw [toList_numeral] at h
  exact Nat.isDigit_of_mem_toDigits (by decide) (by decide) h

theorem numeral_injective {i j : Nat} (h : (toString i).toList = (toString j).toList) :
    i = j := by
  rw [toList_numeral, toList_numeral] at h
  rw [← Nat.ofDigitChars_toDigits (b := 10) (n := i) (by decide) (by decide), h,
    Nat.ofDigitChars_toDigits (by decide) (by decide)]

theorem length_numeral_pos (n : Nat) : 0 < (toString n).toList.length := by
  rw [toList_numeral]
  exact Nat.length_toDigits_pos

theorem append_ne_self (text : String) {more : String} (h : 0 < more.toList.length) :
    text ++ more ≠ text := by
  intro heq
  have hlength := congrArg (fun text => text.toList.length) heq
  simp only [String.toList_append, List.length_append] at hlength
  omega

/-! ## Reading the number off -/

/-- Without digits in the texts before them, equal texts end in the same number. -/
theorem eq_of_append_numeral {word word' : String} {i j : Nat}
    (hword : ∀ c ∈ word.toList, c.isDigit = false) (hword' : ∀ c ∈ word'.toList, c.isDigit = false)
    (h : word ++ toString i = word' ++ toString j) : i = j := by
  -- the number is what is left when only digits are kept
  have hdigits : ∀ (word : String) (n : Nat), (∀ c ∈ word.toList, c.isDigit = false) →
      (word ++ toString n).toList.filter Char.isDigit = (toString n).toList := by
    intro word n hword
    rw [String.toList_append, List.filter_append, List.filter_eq_nil_iff.mpr, List.nil_append,
      List.filter_eq_self]
    · exact fun c => isDigit_of_mem_numeral
    · intro c hc
      simp [hword c hc]
  refine numeral_injective ?_
  rw [← hdigits word i hword, h, hdigits word' j hword']

/-- After an underscore the number can be read off, and so can the text before it. -/
theorem eq_of_append_underscore {text text' : String} {i j : Nat} (htext : '_' ∉ text.toList)
    (h : text ++ "_" ++ toString i = text' ++ "_" ++ toString j) : text = text' ∧ i = j := by
  have hnumeral : '_' ∉ (toString i).toList :=
    fun hmem => absurd (isDigit_of_mem_numeral hmem) (by decide)
  have hlists := congrArg String.toList h
  have hmark : "_".toList = ['_'] := rfl
  simp only [String.toList_append, hmark, List.append_assoc, List.singleton_append] at hlists
  obtain ⟨hfront, -, hback⟩ := (List.append_cons_inj_of_notMem htext hnumeral).mp hlists
  exact ⟨String.toList_inj.mp hfront, numeral_injective hback⟩

/-! ## What cannot be told apart -/

/-- The first digits of a number are a number again. -/
theorem exists_toDigits_of_append {front back : List Char} (hfront : front ≠ []) {n : Nat}
    (hn : 0 < n) (h : front ++ back = Nat.toDigits 10 n) :
    ∃ m, 0 < m ∧ front = Nat.toDigits 10 m := by
  induction n using Nat.strongRecOn generalizing back with
  | ind n ih =>
      rcases List.eq_nil_or_concat back with rfl | ⟨rest, last, rfl⟩
      · exact ⟨n, hn, by rwa [List.append_nil] at h⟩
      · rw [List.concat_eq_append, ← List.append_assoc] at h
        by_cases hlt : n < 10
        · rw [Nat.toDigits_of_lt_base hlt] at h
          have hnil := (List.append_inj' (h.trans (List.nil_append _).symm) rfl).1
          exact absurd (List.append_eq_nil_iff.mp hnil).1 hfront
        · -- without its last digit, the number is a tenth
          rw [Nat.toDigits_of_base_le (by decide) (Nat.le_of_not_lt hlt)] at h
          exact ih (n / 10) (by omega) (by omega) (List.append_inj' h rfl).1

/-- Two texts with a number each are the same if the texts and the numbers are, or if one of the
texts is the other one with a number. -/
theorem append_numeral_eq {text text' : String} {i j : Nat} (hi : 0 < i) (hj : 0 < j)
    (h : text ++ toString i = text' ++ toString j) :
    text = text' ∧ i = j ∨
      ∃ n, 0 < n ∧ (text = text' ++ toString n ∨ text' = text ++ toString n) := by
  -- the longer text ends in the first digits of the other number
  have hlonger : ∀ {text text' : String} {j : Nat} {front back : List Char}, 0 < j →
      text.toList = text'.toList ++ front → (toString j).toList = front ++ back → front ≠ [] →
      ∃ n, 0 < n ∧ text = text' ++ toString n := by
    intro text text' j front back hj htext hdigits hfront
    rw [toList_numeral] at hdigits
    obtain ⟨n, hn, rfl⟩ := exists_toDigits_of_append hfront hj hdigits.symm
    refine ⟨n, hn, String.toList_inj.mp ?_⟩
    rw [String.toList_append, toList_numeral, htext]
  have hlists := congrArg String.toList h
  rw [String.toList_append, String.toList_append] at hlists
  rcases List.append_eq_append_iff.mp hlists with ⟨front, htext, hdigits⟩ | ⟨front, htext, hdigits⟩
  · by_cases hfront : front = []
    · subst hfront
      rw [List.append_nil] at htext
      exact .inl ⟨(String.toList_inj.mp htext).symm, numeral_injective hdigits⟩
    · obtain ⟨n, hn, hlong⟩ := hlonger hi htext hdigits hfront
      exact .inr ⟨n, hn, .inr hlong⟩
  · by_cases hfront : front = []
    · subst hfront
      rw [List.append_nil] at htext
      exact .inl ⟨String.toList_inj.mp htext, (numeral_injective hdigits).symm⟩
    · obtain ⟨n, hn, hlong⟩ := hlonger hj htext hdigits hfront
      exact .inr ⟨n, hn, .inl hlong⟩

end DefUse.Text
