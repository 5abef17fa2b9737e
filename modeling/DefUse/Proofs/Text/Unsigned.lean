/-
# `Proofs.Text.Unsigned` — which texts are numbers in 64 bits

A text is a number if it has at least one digit, nothing but digits after a plus sign that
may stand before them, and if what the digits are worth fits in 64 bits
(`readUnsigned_eq_ok_iff`).  Digits are worth what `Nat.ofDigitChars` says.

Any other text has one of three faults (`readUnsigned_eq_error_iff`).  The digits at its
beginning can be worth too much, and then what follows them does not count: the reading
stops before it gets there.
-/
import Mathlib.Data.List.TakeWhile
import DefUse.Text.Unsigned

namespace DefUse.Text

/-- The characters without a plus sign in front. -/
def signless : List Char → List Char
  | '+' :: rest => rest
  | chars => chars

/-- The digits a number begins with. -/
def leadingDigits (text : String) : List Char :=
  (signless text.toList).takeWhile Char.isDigit

/-- The text is a number without a sign in 64 bits. -/
structure IsUnsigned (text : String) (number : Nat) : Prop where
  nonempty : signless text.toList ≠ []
  digits : ∀ c ∈ signless text.toList, c.isDigit = true
  value : Nat.ofDigitChars 10 (signless text.toList) 0 = number
  small : number < UInt64.size

/-- Why a text is no such number. -/
inductive NotUnsigned (text : String) : NumberFault → Prop
  | empty : text = "" → NotUnsigned text .empty
  | tooLarge : UInt64.size ≤ Nat.ofDigitChars 10 (leadingDigits text) 0 → NotUnsigned text .tooLarge
  /-- A sign alone, or a character other than a digit after digits that are not too large. -/
  | invalidDigit : text ≠ "" →
      signless text.toList = [] ∨ (∃ c ∈ signless text.toList, c.isDigit = false) →
      Nat.ofDigitChars 10 (leadingDigits text) 0 < UInt64.size → NotUnsigned text .invalidDigit

theorem IsUnsigned.unique {text : String} {number number' : Nat} (h : IsUnsigned text number)
    (h' : IsUnsigned text number') : number = number' :=
  h.value.symm.trans h'.value

/-! ## Digits -/

theorem digitValue?_ten (c : Char) :
    digitValue? 10 c = if c.isDigit then some (c.toNat - '0'.toNat) else none := by
  have hdigit : (decide ('0' ≤ c) && decide (c ≤ '9')) = c.isDigit := rfl
  have htoNat : ∀ b : Char, (decide (b ≤ c)) = true → b.toNat ≤ c.toNat := by
    intro b h
    exact of_decide_eq_true h
  rw [digitValue?, hdigit]
  cases h : c.isDigit with
  | true =>
      have hrange : c.toNat ≤ '9'.toNat := (Char.isDigit_iff_toNat.mp h).2
      have hsmall : c.toNat - 48 < 10 := by
        change c.toNat ≤ 57 at hrange
        omega
      simp [hsmall]
  | false =>
      -- letters are worth ten at least
      refine if_neg ?_
      rw [if_neg (by decide)]
      split
      · rename_i hletter
        have hlow : 97 ≤ c.toNat := htoNat 'a' (Bool.and_eq_true_iff.mp hletter).1
        omega
      · split
        · rename_i hletter
          have hlow : 65 ≤ c.toNat := htoNat 'A' (Bool.and_eq_true_iff.mp hletter).1
          omega
        · decide

theorem le_ofDigitChars (digits : List Char) (value : Nat) :
    value ≤ Nat.ofDigitChars 10 digits value := by
  induction digits generalizing value with
  | nil => exact Nat.le_refl value
  | cons c rest ih =>
      rw [Nat.ofDigitChars_cons]
      have hnext := ih (10 * value + (c.toNat - '0'.toNat))
      omega

/-- Reading goes by what the digits at the beginning are worth, and then by whether there is
anything else. -/
theorem readDigits_eq {limit value : Nat} (chars : List Char) (hvalue : value ≤ limit) :
    readDigits 10 limit value chars =
      if limit < Nat.ofDigitChars 10 (chars.takeWhile Char.isDigit) value then .error .tooLarge
      else if chars.all Char.isDigit then .ok (Nat.ofDigitChars 10 chars value)
      else .error .invalidDigit := by
  induction chars generalizing value with
  | nil =>
      have hlimit : ¬ limit < value := Nat.not_lt.mpr hvalue
      simp [readDigits, Nat.ofDigitChars, hlimit]
  | cons c rest ih =>
      rw [readDigits, digitValue?_ten]
      cases hdigit : c.isDigit with
      | false =>
          have hlimit : ¬ limit < value := Nat.not_lt.mpr hvalue
          simp [Nat.ofDigitChars, hdigit, hlimit]
      | true =>
          have hnext : value * 10 + (c.toNat - '0'.toNat) = 10 * value + (c.toNat - '0'.toNat) := by
            omega
          simp only [if_true, hnext, List.takeWhile_cons, hdigit, Nat.ofDigitChars_cons,
            List.all_cons, Bool.true_and]
          split
          · rename_i hlarge
            rw [if_pos (Nat.lt_of_lt_of_le hlarge (le_ofDigitChars _ _))]
          · rename_i hsmall
            exact ih (Nat.not_lt.mp hsmall)

/-! ## The whole text -/

theorem maxUnsigned_lt_iff {number : Nat} : maxUnsigned < number ↔ UInt64.size ≤ number := by
  have hsize : UInt64.size = maxUnsigned + 1 := rfl
  omega

theorem readUnsigned_eq_readDigits (text : String) :
    readUnsigned text =
      if text = "" then .error .empty
      else if signless text.toList = [] then .error .invalidDigit
      else readDigits 10 maxUnsigned 0 (signless text.toList) := by
  have hempty : text = "" ↔ text.toList = [] := by simp
  simp only [readUnsigned, readNumber, hempty, List.isEmpty_iff]
  split
  · rename_i htext
    simp [htext, signless]
  · rename_i digits hsign htext
    have hdigits : digits ≠ [] := by
      rintro rfl
      exact hsign rfl
    simp [htext, signless, hdigits]
  · rename_i hsign hplus
    have hsignless : signless text.toList = text.toList := by
      rw [signless]
      exact hplus
    rw [hsignless]
    split <;> simp_all

theorem readUnsigned_eq (text : String) :
    readUnsigned text =
      if text = "" then .error .empty
      else if signless text.toList = [] then .error .invalidDigit
      else if maxUnsigned < Nat.ofDigitChars 10 (leadingDigits text) 0 then .error .tooLarge
      else if (signless text.toList).all Char.isDigit then
        .ok (Nat.ofDigitChars 10 (signless text.toList) 0)
      else .error .invalidDigit := by
  rw [readUnsigned_eq_readDigits, readDigits_eq _ (Nat.zero_le _)]
  rfl

theorem readUnsigned_eq_ok_iff {text : String} {number : Nat} :
    readUnsigned text = .ok number ↔ IsUnsigned text number := by
  have hleading : (∀ c ∈ signless text.toList, c.isDigit = true) →
      leadingDigits text = signless text.toList := List.takeWhile_eq_self_iff.mpr
  rw [readUnsigned_eq]
  constructor
  · intro h
    split_ifs at h with hempty hsign hlarge hdigits
    injection h with hvalue
    rw [List.all_eq_true] at hdigits
    rw [hleading hdigits, hvalue, maxUnsigned_lt_iff] at hlarge
    exact ⟨hsign, hdigits, hvalue, Nat.not_le.mp hlarge⟩
  · rintro ⟨hsign, hdigits, rfl, hsmall⟩
    have hempty : text ≠ "" := by
      rintro rfl
      exact hsign rfl
    rw [← Nat.not_le, ← maxUnsigned_lt_iff] at hsmall
    rw [if_neg hempty, if_neg hsign, hleading hdigits, if_neg hsmall,
      if_pos (List.all_eq_true.mpr hdigits)]

theorem readUnsigned_eq_error_iff {text : String} {fault : NumberFault} :
    readUnsigned text = .error fault ↔ NotUnsigned text fault := by
  rw [readUnsigned_eq]
  constructor
  · intro h
    split_ifs at h with hempty hsign hlarge hdigits
    · cases h
      exact .empty hempty
    · cases h
      refine .invalidDigit hempty (.inl hsign) ?_
      simp [leadingDigits, hsign, Nat.ofDigitChars]
    · cases h
      exact .tooLarge (maxUnsigned_lt_iff.mp hlarge)
    · cases h
      rw [maxUnsigned_lt_iff, Nat.not_le] at hlarge
      exact .invalidDigit hempty (.inr (by simpa using hdigits)) hlarge
  · rintro (hempty | hlarge | ⟨hempty, hother, hsmall⟩)
    · rw [if_pos hempty]
    · -- the digits that are worth so much are there
      have hsign : signless text.toList ≠ [] := by
        intro hsign
        simp [leadingDigits, hsign, Nat.ofDigitChars] at hlarge
      have hempty : text ≠ "" := by
        rintro rfl
        exact hsign rfl
      rw [if_neg hempty, if_neg hsign, if_pos (maxUnsigned_lt_iff.mpr hlarge)]
    · rw [if_neg hempty]
      split
      · rfl
      · rename_i hsign
        obtain ⟨c, hc, hdigit⟩ := hother.resolve_left hsign
        have hdigits : ¬ (signless text.toList).all Char.isDigit = true := by
          intro hdigits
          simp [List.all_eq_true.mp hdigits c hc] at hdigit
        rw [← Nat.not_le, ← maxUnsigned_lt_iff] at hsmall
        rw [if_neg hsmall, if_neg hdigits]

end DefUse.Text
