/-
# `Yaml.Scalar` — what a plain text means

A quoted text is a text.  A plain one may also be nothing, a truth value or a
number: decimal without superfluous zeros, after `0x`, `0o` or `0b` in another base,
or a decimal fraction.
-/
import DefUse.Text.Unsigned
import DefUse.Yaml.Decimal

namespace DefUse.Yaml

/-- What a plain text means. -/
inductive Scalar where
  | null
  | bool (value : Bool)
  /-- A number without a sign, in 64 bits. -/
  | unsigned (value : Nat)
  /-- A number below zero, in 64 bits. -/
  | negative (value : Nat)
  /-- A whole number that no 64 bits hold. -/
  | huge
  /-- A number that is not written as a whole one. -/
  | float (value : Double)
  | text (text : String)
deriving DecidableEq, Inhabited

namespace Scalar

/-- Reads a truth value. -/
def readBool? (text : String) : Option Bool :=
  if ["true", "True", "TRUE"].contains text then some true
  else if ["false", "False", "FALSE"].contains text then some false
  else none

/-- Does the text stand for nothing? -/
def isNull (text : String) : Bool :=
  ["", "~", "null", "Null", "NULL"].contains text

/-- Is it decimal digits with a superfluous zero in front?  Such a text is no number. -/
def hasLeadingZero (chars : List Char) : Bool :=
  let digits := match chars with
    | '-' :: rest | '+' :: rest => rest
    | chars => chars
  match digits with
  | '0' :: c :: rest => (c :: rest).all Char.isDigit
  | _ => false

/-- The base that the first characters name, with the digits after them. -/
def baseOf : List Char → Option (Nat × List Char)
  | '0' :: 'x' :: rest => some (16, rest)
  | '0' :: 'o' :: rest => some (8, rest)
  | '0' :: 'b' :: rest => some (2, rest)
  | _ => none

/-- Reads digits as a number up to `limit`. -/
def readMagnitude? (limit : Nat) (digits : List Char) : Option Nat :=
  match baseOf digits with
  | some (base, rest) => (Text.readNumber base limit rest).toOption
  | none => (Text.readNumber 10 limit digits).toOption

/-- Reads a number without a sign, up to `limit`; a plus may stand before it. -/
def readUnsigned? (limit : Nat) (text : String) : Option Nat :=
  let chars := text.toList
  if hasLeadingZero chars then none
  else
    match chars with
    | '+' :: rest => readMagnitude? limit rest
    | chars => readMagnitude? limit chars

/-- Reads the magnitude of a number after a minus, up to `limit`. -/
def readNegative? (limit : Nat) (text : String) : Option Nat :=
  let chars := text.toList
  if hasLeadingZero chars then none
  else
    match chars with
    | '-' :: rest => readMagnitude? limit rest
    | _ => none

/-- Reads a number that is not whole, infinity or no number at all. -/
def readFloat? (text : String) : Option Double :=
  if hasLeadingZero text.toList then none else Double.read? text

/-- The meaning of a plain text. -/
def ofPlain (text : String) : Scalar :=
  if isNull text then .null
  else
    match readBool? text with
    | some value => .bool value
    | none =>
      match readUnsigned? Text.maxUnsigned text, readNegative? (Nat.pow 2 63) text with
      | some value, _ => .unsigned value
      | none, some value => if value = 0 then .unsigned 0 else .negative value
      | none, none =>
        if (readUnsigned? (Nat.pow 2 128 - 1) text).isSome ||
            (readNegative? (Nat.pow 2 127) text).isSome then .huge
        else
          match readFloat? text with
          | some value => .float value
          | none => .text text

end Scalar

end DefUse.Yaml
