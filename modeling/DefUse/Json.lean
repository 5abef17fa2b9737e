/-
# `Json` — values of the interchange format and their text

Values with whole numbers; the members of an object stand in order.  The text of
a value has one member or element on a line, indented by two spaces a level.
-/
import DefUse.Text.Unsigned

namespace DefUse

/-- A value. -/
inductive Json where
  | null
  | bool (value : Bool)
  | num (value : Int)
  | str (value : String)
  | arr (elements : List Json)
  | obj (members : List (String × Json))
deriving Inhabited

namespace Json

/-! ## Text -/

/-- The hexadecimal digit of a number below sixteen. -/
def hexDigit (n : Nat) : Char :=
  Nat.digitChar n

/-- A character inside a quoted text. -/
def escapeChar (c : Char) : String :=
  match c with
  | '"' => "\\\""
  | '\\' => "\\\\"
  | '\n' => "\\n"
  | '\r' => "\\r"
  | '\t' => "\\t"
  | c =>
    if c.toNat = 8 then "\\b"
    else if c.toNat = 12 then "\\f"
    else if c.toNat < 32 then
      "\\u00" ++ String.ofList [hexDigit (c.toNat / 16), hexDigit (c.toNat % 16)]
    else String.singleton c

/-- A text in quotes. -/
def quote (text : String) : String :=
  "\"" ++ String.join (text.toList.map escapeChar) ++ "\""

/-- A new line with the indentation of a level. -/
def newline (level : Nat) : String :=
  "\n" ++ String.ofList (List.replicate (2 * level) ' ')

mutual

/-- The text of a value at a level of indentation. -/
def prettyAt (level : Nat) : Json → String
  | null => "null"
  | bool value => if value then "true" else "false"
  | num value => toString value
  | str value => quote value
  | arr elements =>
    if elements.isEmpty then "[]"
    else "[" ++ prettyElements (level + 1) "" elements ++ newline level ++ "]"
  | obj members =>
    if members.isEmpty then "\x7b\x7d"
    else "\x7b" ++ prettyMembers (level + 1) "" members ++ newline level ++ "\x7d"

/-- The elements of an array, each after what separates it from the one before. -/
def prettyElements (level : Nat) (separator : String) : List Json → String
  | [] => ""
  | element :: rest =>
    separator ++ newline level ++ prettyAt level element ++ prettyElements level "," rest

/-- The members of an object, each after what separates it from the one before. -/
def prettyMembers (level : Nat) (separator : String) : List (String × Json) → String
  | [] => ""
  | (key, value) :: rest =>
    separator ++ newline level ++ quote key ++ ": " ++ prettyAt level value ++
      prettyMembers level "," rest

end

/-- The text of a value. -/
def pretty (value : Json) : String :=
  value.prettyAt 0

/-! ## Reading records -/

/-- A whole number that fits in 64 bits without a sign. -/
def toUnsigned? : Json → Option Nat
  | num (.ofNat n) => if n ≤ Text.maxUnsigned then some n else none
  | _ => none

def toText? : Json → Option String
  | str value => some value
  | _ => none

def toElements? : Json → Option (List Json)
  | arr elements => some elements
  | _ => none

/-- The values of a record's fields, in the order of `keys`.  A record is an object
with each of its keys once, and any other keys; or an array with just its values. -/
def toFields? (keys : List String) : Json → Option (List Json)
  | arr elements => if elements.length = keys.length then some elements else none
  | obj members =>
    keys.mapM fun key =>
      match members.filter fun member => member.1 = key with
      | [(_, value)] => some value
      | _ => none
  | _ => none

/-- A word from a fixed choice, as a text or as an object with the word as its only
key and nothing under it. -/
def toChoice? : Json → Option String
  | str value => some value
  | obj [(key, null)] => some key
  | _ => none

end Json

end DefUse
