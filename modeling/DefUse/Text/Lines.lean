/-
# `Text.Lines` — the lines of a text

A line ends at a line feed, and a carriage return right before the line feed
belongs to the ending.  The last line needs no ending; what comes after a final
ending is no line.
-/

namespace DefUse.Text

/-- The text of a line without the carriage return of its ending, given its
characters in reverse. -/
def endedLine : List Char → String
  | '\r' :: rest => String.ofList rest.reverse
  | chars => String.ofList chars.reverse

/-- The lines of a list of characters, `line` being the current one in reverse. -/
def linesFrom (line : List Char) : List Char → List String
  | [] => if line.isEmpty then [] else [String.ofList line.reverse]
  | '\n' :: rest => endedLine line :: linesFrom [] rest
  | c :: rest => linesFrom (c :: line) rest

/-- The lines of a text. -/
def lines (text : String) : List String :=
  linesFrom [] text.toList

/-- The text before its first line feed. -/
def firstLine (text : String) : String :=
  String.ofList (text.toList.takeWhile (· ≠ '\n'))

end DefUse.Text
