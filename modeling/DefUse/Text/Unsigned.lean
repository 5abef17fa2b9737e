/-
# `Text.Unsigned` — numbers without a sign in 64 bits

Digits are read from left to right; the first character that is no digit, or the
first digit with which the number becomes too large, decides the fault.
-/

namespace DefUse.Text

/-- The largest number in 64 bits. -/
def maxUnsigned : Nat :=
  Nat.pow 2 64 - 1

/-- Why a text is no number. -/
inductive NumberFault where
  | empty
  | invalidDigit
  | tooLarge
deriving DecidableEq, Inhabited

def NumberFault.message : NumberFault → String
  | empty => "cannot parse integer from empty string"
  | invalidDigit => "invalid digit found in string"
  | tooLarge => "number too large to fit in target type"

/-- The value of a digit in a base of at most sixteen. -/
def digitValue? (base : Nat) (c : Char) : Option Nat :=
  let value :=
    if '0' ≤ c && c ≤ '9' then c.toNat - 48
    else if 'a' ≤ c && c ≤ 'f' then c.toNat - 87
    else if 'A' ≤ c && c ≤ 'F' then c.toNat - 55
    else base
  if value < base then some value else none

/-- Reads digits after those that make up `value`, up to `limit`. -/
def readDigits (base limit value : Nat) : List Char → Except NumberFault Nat
  | [] => .ok value
  | c :: rest =>
    match digitValue? base c with
    | none => .error .invalidDigit
    | some digit =>
      let next := value * base + digit
      if limit < next then .error .tooLarge else readDigits base limit next rest

/-- Reads a number with at least one digit. -/
def readNumber (base limit : Nat) (digits : List Char) : Except NumberFault Nat :=
  if digits.isEmpty then .error .empty else readDigits base limit 0 digits

/-- Reads a decimal number in 64 bits.  A plus sign may stand before it. -/
def readUnsigned (text : String) : Except NumberFault Nat :=
  match text.toList with
  | ['+'] => .error .invalidDigit
  | '+' :: digits => readNumber 10 maxUnsigned digits
  | digits => readNumber 10 maxUnsigned digits

end DefUse.Text
