/-
# `Proofs.Text.Lowercase` — words in any letters

A word of small letters can be told without the table of capital letters.  If its letters
are plain, the small letters of a text are the word exactly if the text is the word but for
capital letters from A to Z (`lowercase_eq_iff`).  All letters from a to z are plain but k,
which is the small letter of the sign for kelvin as well.

Up to 127 the table agrees with `Char.toLower` (`lowerChar_of_ascii`).  What lies beyond has
no small letters that are all plain (`exists_not_isPlainLetter_of_lowerChar`), as the ends of
the runs show (`capitalRuns_bounds`).
-/
import Mathlib
import DefUse.Text.Lowercase

namespace DefUse.Text

/-- The text is the word, which is in small letters, but for capital letters. -/
def InAnyCase (text word : String) : Prop :=
  text.toList.map Char.toLower = word.toList

/-- A letter from a to z that is the small letter of one capital letter only. -/
def IsPlainLetter (c : Char) : Prop :=
  c.isLower = true ∧ c ≠ 'k'

instance (c : Char) : Decidable (IsPlainLetter c) :=
  inferInstanceAs (Decidable (_ ∧ _))

/-- A word of such letters. -/
def IsPlainWord (word : String) : Prop :=
  ∀ c ∈ word.toList, IsPlainLetter c

-- the characters of the word are tried, not all there are
instance (word : String) : Decidable (IsPlainWord word) :=
  List.decidableBAll IsPlainLetter word.toList

/-! ## One character -/

/-- The capital letters from A to Z. -/
def latinCapitals : LetterRun :=
  ⟨0x41, 0x5a, 1, 32⟩

/-- All runs but that from A to Z lie beyond 127, and lead to what lies there, but for the sign for
kelvin. -/
theorem capitalRuns_bounds {run : LetterRun} (h : run ∈ capitalRuns) :
    run = latinCapitals ∨ 128 ≤ run.first ∧
      (128 ≤ run.first + run.shift ∨ run.first = run.last ∧ run.first + run.shift = 107) := by
  have htable : ∀ run ∈ capitalRuns.toList.tail, 128 ≤ run.first ∧
      (128 ≤ run.first + run.shift ∨ run.first = run.last ∧ run.first + run.shift = 107) := by
    decide +kernel
  rcases List.mem_cons.mp (Array.mem_toList_iff.mpr h) with rfl | hrest
  · exact .inl rfl
  · exact .inr (htable run hrest)

theorem latinCapitals_mem : latinCapitals ∈ capitalRuns :=
  Array.mem_toList_iff.mp (List.mem_cons_self ..)

theorem holds_latinCapitals {code : Nat} :
    latinCapitals.holds code = true ↔ 0x41 ≤ code ∧ code ≤ 0x5a := by
  simp only [LetterRun.holds, Bool.and_eq_true, decide_eq_true_eq]
  simp [latinCapitals, Nat.mod_one]

theorem lowerChar_of_ascii {c : Char} (h : c.toNat < 128) : lowerChar c = [c.toLower] := by
  have hdot : c.toNat ≠ 0x130 := by omega
  have hupper : c.isUpper = true ↔ latinCapitals.holds c.toNat = true := by
    rw [holds_latinCapitals, Char.isUpper, decide_eq_true_eq]
    exact and_congr UInt32.le_iff_toNat_le UInt32.le_iff_toNat_le
  rw [lowerChar, if_neg hdot]
  split
  · rename_i run hrun
    have hholds : run.holds c.toNat = true := Array.find?_some hrun
    rcases capitalRuns_bounds (Array.mem_of_find?_eq_some hrun) with rfl | hbounds
    · rw [Char.toLower_eq_of_isUpper (hupper.mpr hholds)]
      rfl
    · simp only [LetterRun.holds, Bool.and_eq_true, decide_eq_true_eq] at hholds
      omega
  · rename_i hnone
    have hholds := Array.find?_eq_none.mp hnone latinCapitals latinCapitals_mem
    rw [Char.toLower_eq_of_not_isUpper (mt hupper.mp hholds)]

theorem isPlainLetter_iff_toNat {c : Char} :
    IsPlainLetter c ↔ 97 ≤ c.toNat ∧ c.toNat ≤ 122 ∧ c.toNat ≠ 107 := by
  have hk : c = 'k' ↔ c.toNat = 107 := by
    rw [← Char.toNat_inj]
    rfl
  simp [IsPlainLetter, hk, Char.isLower, UInt32.le_iff_toNat_le, ← Char.toNat_val, and_assoc]

theorem not_isPlainLetter_ofNat {n : Nat} (h : 128 ≤ n ∨ n = 107) :
    ¬ IsPlainLetter (Char.ofNat n) := by
  rw [isPlainLetter_iff_toNat, Char.toNat_ofNat]
  split <;> omega

/-- Of the small letters of a character beyond 127, one is not plain. -/
theorem exists_not_isPlainLetter_of_lowerChar {c : Char} (h : 128 ≤ c.toNat) :
    ∃ d ∈ lowerChar c, ¬ IsPlainLetter d := by
  rw [lowerChar]
  split
  · exact ⟨Char.ofNat 0x307, by simp, by decide⟩
  · split
    · rename_i run hrun
      refine ⟨_, List.mem_singleton.mpr rfl, not_isPlainLetter_ofNat ?_⟩
      have hholds : run.holds c.toNat = true := Array.find?_some hrun
      rcases capitalRuns_bounds (Array.mem_of_find?_eq_some hrun) with rfl | hbounds
      · have hlatin := holds_latinCapitals.mp hholds
        omega
      · simp only [LetterRun.holds, Bool.and_eq_true, decide_eq_true_eq] at hholds
        omega
    · refine ⟨c, List.mem_singleton.mpr rfl, ?_⟩
      rw [isPlainLetter_iff_toNat]
      omega

/-! ## Texts -/

theorem lowerFrom_of_ascii {chars : List Char} (h : ∀ c ∈ chars, c.toNat < 128)
    (before : List Char) : lowerFrom before chars = chars.map Char.toLower := by
  induction chars generalizing before with
  | nil => rfl
  | cons c rest ih =>
      obtain ⟨hc, hrest⟩ := List.forall_mem_cons.mp h
      have hsigma : c.toNat ≠ 0x3a3 := by omega
      rw [lowerFrom, if_neg hsigma, lowerChar_of_ascii hc, ih hrest]
      rfl

/-- Only characters up to 127 become plain letters. -/
theorem ascii_of_lowerFrom {before chars : List Char}
    (h : ∀ d ∈ lowerFrom before chars, IsPlainLetter d) : ∀ c ∈ chars, c.toNat < 128 := by
  induction chars generalizing before with
  | nil => nofun
  | cons c rest ih =>
      rw [lowerFrom, List.forall_mem_append] at h
      refine List.forall_mem_cons.mpr ⟨?_, ih h.2⟩
      refine Nat.lt_of_not_le fun hlarge => ?_
      split at h
      · -- neither of the two small sigmas is a plain letter
        split at h <;> exact absurd (h.1 _ (List.mem_singleton.mpr rfl)) (by decide)
      · obtain ⟨d, hd, hplain⟩ := exists_not_isPlainLetter_of_lowerChar hlarge
        exact hplain (h.1 d hd)

theorem ascii_of_toLower {c : Char} (h : IsPlainLetter c.toLower) : c.toNat < 128 := by
  have halpha : c.isAlpha = true := (Char.isLower_toLower_eq_isAlpha c).symm.trans h.1
  simp only [Char.isAlpha, Char.isUpper, Char.isLower, Bool.or_eq_true, Bool.and_eq_true,
    decide_eq_true_eq, ge_iff_le, UInt32.le_iff_toNat_le] at halpha
  have hcode : c.val.toNat = c.toNat := rfl
  have hlast : 'Z'.val.toNat = 90 ∧ 'z'.val.toNat = 122 := ⟨rfl, rfl⟩
  omega

/-- The small letters of a text are a word of plain letters if it is the word in any letters. -/
theorem lowercase_eq_iff {text word : String} (h : IsPlainWord word) :
    lowercase text = word ↔ InAnyCase text word := by
  have hlower : lowercase text = word ↔ lowerFrom [] text.toList = word.toList := by
    rw [lowercase, ← String.toList_inj, String.toList_ofList]
  rw [IsPlainWord] at h
  rw [hlower, InAnyCase]
  constructor
  · intro heq
    rw [← heq] at h
    rw [← heq, lowerFrom_of_ascii (ascii_of_lowerFrom h)]
  · intro heq
    rw [← heq] at h ⊢
    refine lowerFrom_of_ascii ?_ []
    intro c hc
    exact ascii_of_toLower (h _ (List.mem_map_of_mem hc))

theorem lowercase_mem_iff {text : String} {words : List String}
    (h : ∀ word ∈ words, IsPlainWord word) :
    lowercase text ∈ words ↔ ∃ word ∈ words, InAnyCase text word := by
  constructor
  · intro hmem
    exact ⟨_, hmem, (lowercase_eq_iff (h _ hmem)).mp rfl⟩
  · rintro ⟨word, hword, hcase⟩
    rwa [(lowercase_eq_iff (h word hword)).mpr hcase]

end DefUse.Text
