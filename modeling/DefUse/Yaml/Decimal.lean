/-
# `Yaml.Decimal` — decimal fractions and the doubles nearest to them

A number that is not whole is written as a decimal fraction and means the double
nearest to it.  Every double is a whole multiple of `2^-1074`, the least one above
zero, and is kept as that multiple.  So two ways to write one double are equal as
values, and rounding is a matter of whole numbers: of the binary digits of the
multiple the first 53 are kept, and a half goes to the even neighbour.
-/

namespace DefUse.Yaml

/-- The number `digits * 10^exponent`, or its negative. -/
structure Decimal where
  negative : Bool
  digits : Nat
  exponent : Int
deriving DecidableEq, Inhabited

/-- A double.  The two zeros are one, and so are all doubles that are no number. -/
inductive Double where
  /-- A whole multiple of `2^-1074`. -/
  | finite (units : Int)
  | infinite (negative : Bool)
  | notNumber
deriving DecidableEq, Inhabited

namespace Decimal

/-! ## Reading -/

/-- Takes a sign away; says whether it was a minus. -/
def takeSign : List Char → Bool × List Char
  | '-' :: rest => (true, rest)
  | '+' :: rest => (false, rest)
  | chars => (false, chars)

/-- The number that decimal digits make up. -/
def valueOf (digits : List Char) : Nat :=
  digits.foldl (fun value c => value * 10 + (c.toNat - '0'.toNat)) 0

/-- Reads an exponent with its mark; nothing at all stands for zero. -/
def readExponent? : List Char → Option Int
  | [] => some 0
  | c :: rest =>
    let (negative, digits) := takeSign rest
    if (c = 'e' || c = 'E') && !digits.isEmpty && digits.all Char.isDigit then
      let magnitude : Int := valueOf digits
      some (if negative then -magnitude else magnitude)
    else none

/-- Reads a decimal fraction, with or without an exponent.  There has to be a digit
before or after the point. -/
def read? (text : String) : Option Decimal :=
  let (negative, chars) := takeSign text.toList
  let whole := chars.takeWhile Char.isDigit
  let (part, rest) := match chars.dropWhile Char.isDigit with
    | '.' :: rest => (rest.takeWhile Char.isDigit, rest.dropWhile Char.isDigit)
    | rest => ([], rest)
  if whole.isEmpty && part.isEmpty then none
  else
    (readExponent? rest).map fun exponent =>
      ⟨negative, valueOf (whole ++ part), exponent - part.length⟩

/-! ## Rounding -/

/-- The whole number nearest to a quotient; a half goes to the even one. -/
def roundQuotient (numerator denominator : Nat) : Nat :=
  let quotient := numerator / denominator
  let twice := 2 * (numerator % denominator)
  if twice < denominator || (twice = denominator && quotient % 2 = 0) then quotient
  else quotient + 1

/-- The double nearest to a quotient as a multiple of `2^-1074`, however large. -/
def nearest (numerator denominator : Nat) : Nat :=
  let scaled := numerator * Nat.pow 2 1074
  let unit := Nat.pow 2 ((scaled / denominator).log2 - 52)
  roundQuotient scaled (denominator * unit) * unit

/-- The magnitude of the nearest double, unless it is too large for a double, that is
`2^1024` or more.  A number below `10^-330` is nearest to zero, and one from `10^310`
on is too large, so that no power with a larger exponent is ever taken. -/
def magnitude? (decimal : Decimal) : Option Nat :=
  let places := (Nat.toDigits 10 decimal.digits).length + decimal.exponent
  if decimal.digits = 0 || places < -330 then some 0
  else if 310 < places then none
  else
    let units := nearest (decimal.digits * Nat.pow 10 decimal.exponent.toNat)
      (Nat.pow 10 (-decimal.exponent).toNat)
    if units < Nat.pow 2 2098 then some units else none

/-- The nearest double, unless it is too large. -/
def toDouble? (decimal : Decimal) : Option Double :=
  decimal.magnitude?.map fun units =>
    .finite (if decimal.negative then -(units : Int) else units)

end Decimal

namespace Double

/-- Reads the word for infinity or for what is no number. -/
def ofWord? (text : String) : Option Double :=
  if [".inf", ".Inf", ".INF", "+.inf", "+.Inf", "+.INF"].contains text then
    some (.infinite false)
  else if ["-.inf", "-.Inf", "-.INF"].contains text then some (.infinite true)
  else if [".nan", ".NaN", ".NAN"].contains text then some .notNumber
  else none

/-- Reads a double.  A fraction that is too large for one is none. -/
def read? (text : String) : Option Double :=
  match ofWord? text with
  | some value => some value
  | none => (Decimal.read? text).bind Decimal.toDouble?

end Double

end DefUse.Yaml
