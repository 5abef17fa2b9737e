/-
# `Text.Lowercase` — a text in small letters

Every capital letter becomes its small letter.  Two letters need more than the
table: the capital `I` with a dot becomes two characters, and the Greek capital
sigma becomes a final sigma at the end of a word.
-/
import DefUse.Text.Lowercase.Cased
import DefUse.Text.Lowercase.Letters

namespace DefUse.Text

/-- Is it a letter that has case and is not looked past? -/
def isCased (c : Char) : Bool :=
  inRanges casedRanges c.toNat

/-- Is the character looked past when the neighbours of a letter are examined? -/
def isIgnorable (c : Char) : Bool :=
  inRanges ignorableRanges c.toNat

/-- Is the next character that counts a letter with case? -/
def meetsCased (chars : List Char) : Bool :=
  match chars.dropWhile isIgnorable with
  | c :: _ => isCased c
  | [] => false

/-- The small letter of a character that does not depend on its neighbours. -/
def lowerChar (c : Char) : List Char :=
  if c.toNat = 0x130 then ['i', Char.ofNat 0x307]
  else
    match capitalRuns.find? (LetterRun.holds c.toNat) with
    | some run => [Char.ofNat (Int.toNat (c.toNat + run.shift))]
    | none => [c]

/-- The characters in small letters, `before` being those already passed, the
nearest first. -/
def lowerFrom (before : List Char) : List Char → List Char
  | [] => []
  | c :: rest =>
    let small :=
      if c.toNat = 0x3a3 then
        if meetsCased before && !meetsCased rest then [Char.ofNat 0x3c2] else [Char.ofNat 0x3c3]
      else lowerChar c
    small ++ lowerFrom (c :: before) rest

/-- The text in small letters. -/
def lowercase (text : String) : String :=
  String.ofList (lowerFrom [] text.toList)

end DefUse.Text
