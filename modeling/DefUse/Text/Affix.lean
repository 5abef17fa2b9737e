/-
# `Text.Affix` — words inside and at the end of a text

Node kinds and field names are compared as whole words, but two questions
look inside a word: does it hold another one, and does it end in one.  Both
are answered on lists of characters, where they are plain recursions.
-/

namespace DefUse.Text

/-- Does `word` stand somewhere in the list of characters? -/
def occurs (word : List Char) : List Char → Bool
  | [] => word.isEmpty
  | c :: rest => word.isPrefixOf (c :: rest) || occurs word rest

/-- Does the text hold `word`? -/
def holds (word text : String) : Bool :=
  occurs word.toList text.toList

/-- Does the text end in `word`? -/
def endsIn (word text : String) : Bool :=
  word.toList.isSuffixOf text.toList

/-- Does the text begin with `word`? -/
def startsIn (word text : String) : Bool :=
  word.toList.isPrefixOf text.toList

end DefUse.Text
