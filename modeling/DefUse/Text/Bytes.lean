/-
# `Text.Bytes` — pieces of a text by byte offset

Offsets into a source count the bytes of its encoding, not its characters.
-/

namespace DefUse.Text

/-- The text between two byte offsets; empty if an offset falls inside a character. -/
def slice (text : String) (start stop : Nat) : String :=
  (String.fromUTF8? (text.toUTF8.extract start stop)).getD ""

end DefUse.Text
