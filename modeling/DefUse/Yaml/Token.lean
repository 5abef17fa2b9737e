/-
# `Yaml.Token` — the tokens of a settings file

Of YAML a small part is read here, in which settings are mostly written: block and
flow collections, plain and quoted texts, comments and document marks.  Files with
anchors, tags, directives or block texts cannot be read, although they are YAML.

This file holds the tokens and the reading of texts; `Yaml.Scanner` finds where
they begin.
-/
import DefUse.Text.Unsigned

namespace DefUse.Yaml

/-- A token.  The marks of block collections have no characters of their own: they
stand for a change of indentation. -/
inductive Token where
  | documentStart
  | documentEnd
  | blockSequenceStart
  | blockMappingStart
  | blockEnd
  | flowSequenceStart
  | flowSequenceEnd
  | flowMappingStart
  | flowMappingEnd
  | blockEntry
  | flowEntry
  | key
  | value
  /-- A text, plain or quoted. -/
  | scalar (plain : Bool) (text : String)
deriving DecidableEq, Inhabited

/-- A place in the text, with what follows it. -/
structure Cursor where
  rest : List Char
  line : Nat
  /-- The characters before it in its line. -/
  column : Nat
  /-- The bytes before it in the text. -/
  offset : Nat
deriving Inhabited

/-- Goes on by some characters of one line, each of one byte. -/
def Cursor.skip (count : Nat) (cursor : Cursor) : Cursor :=
  ⟨cursor.rest.drop count, cursor.line, cursor.column + count, cursor.offset + count⟩

/-! ## Characters -/

/-- Is it a blank within a line? -/
def isGapChar (c : Char) : Bool :=
  c = ' ' || c = '\t'

/-- Does it end a line: a line feed, or a separator of lines or paragraphs? -/
def isBreak (c : Char) : Bool :=
  c = '\n' || c.toNat = 0x2028 || c.toNat = 0x2029

/-- Is it a byte order mark? -/
def isOrderMark (c : Char) : Bool :=
  c.toNat = 0xfeff

/-- Does a word end here: at a blank, a line's end or the end of the text? -/
def wordEnds : List Char → Bool
  | [] => true
  | c :: _ => isGapChar c || isBreak c

/-- Does a document mark stand here? -/
def isMark (mark : List Char) (chars : List Char) : Bool :=
  mark.isPrefixOf chars && wordEnds (chars.drop 3)

/-- Does a mark of either kind stand here? -/
def isDocumentMark (chars : List Char) : Bool :=
  isMark ['-', '-', '-'] chars || isMark ['.', '.', '.'] chars

/-- May the character occur in a file at all? -/
def isAllowed (c : Char) : Bool :=
  c = '\t' || c = '\n' || (0x20 ≤ c.toNat && c.toNat ≤ 0x7e) ||
    (0xa0 ≤ c.toNat && !([0xfffe, 0xffff].contains c.toNat))

/-- The characters with a line feed for a carriage return, for a carriage return and
the line feed after it, and for the character of a next line. -/
def unifyBreaks : List Char → List Char
  | [] => []
  | '\r' :: '\n' :: rest => '\n' :: unifyBreaks rest
  | c :: rest => (if c = '\r' || c.toNat = 0x85 then '\n' else c) :: unifyBreaks rest

/-! ## Texts over several lines -/

/-- What stands between two words of a text: blanks of one line, or line breaks. -/
inductive Gap where
  | blanks (reversed : List Char)
  /-- The first break, unless it was written away with a backslash, and those after
  it, the last one first. -/
  | breaks (first : Option Char) (further : List Char)
deriving Inhabited

namespace Gap

/-- No gap. -/
def none : Gap :=
  blanks []

/-- The gap with one more line break; blanks before a break are dropped. -/
def addBreak (c : Char) : Gap → Gap
  | blanks _ => breaks (some c) []
  | breaks first further => breaks first (c :: further)

/-- The gap with one more blank; blanks after a break are dropped. -/
def addBlank (c : Char) : Gap → Gap
  | blanks reversed => blanks (c :: reversed)
  | breaks first further => breaks first further

/-- The characters of the gap in the text, in reverse.  A line feed alone becomes a
space, and one that comes first of several breaks is dropped; all other breaks are
kept. -/
def reversed : Gap → List Char
  | blanks reversed => reversed
  | breaks (some '\n') [] => [' ']
  | breaks (some '\n') further => further
  | breaks first further => further ++ first.toList

/-- Does the gap cross a line's end? -/
def crosses : Gap → Bool
  | blanks _ => false
  | breaks _ _ => true

/-- Is there a gap at all? -/
def isOpen : Gap → Bool
  | blanks reversed => !reversed.isEmpty
  | breaks _ _ => true

end Gap

/-- A text that was read, and the place after it. -/
structure Reading where
  text : String
  cursor : Cursor
  /-- Did the reading go on into another line after the text? -/
  crossed : Bool
deriving Inhabited

/-- Does a plain text end before `c`? -/
def plainEnds (inFlow : Bool) (least column : Nat) (gap : Gap) (c : Char) (rest : List Char) :
    Bool :=
  (column = 0 && isDocumentMark (c :: rest)) ||
  (gap.isOpen && c = '#') ||
  (!inFlow && gap.crosses && column < least) ||
  (c = ':' && wordEnds rest) ||
  (inFlow && [',', '[', ']', '\x7b', '\x7d'].contains c)

/-- Is `c` a colon that a flow collection cannot have inside a plain text? -/
def isLooseColon (inFlow : Bool) (c : Char) (rest : List Char) : Bool :=
  inFlow && c = ':' &&
    rest.head?.any fun next => [',', '?', '[', ']', '\x7b', '\x7d'].contains next

/-- Reads a plain text; its further lines are indented by at least `least`. -/
def readPlain (inFlow : Bool) (least : Nat) (line column offset : Nat) (text : List Char)
    (gap : Gap) : List Char → Option Reading
  | [] => some ⟨String.ofList text.reverse, ⟨[], line, column, offset⟩, gap.crosses⟩
  | c :: rest =>
    if isGapChar c then
      if gap.crosses && column < least && c = '\t' then none
      else readPlain inFlow least line (column + 1) (offset + 1) text (gap.addBlank c) rest
    else if isBreak c then
      readPlain inFlow least (line + 1) 0 (offset + c.utf8Size) text (gap.addBreak c) rest
    else if plainEnds inFlow least column gap c rest then
      some ⟨String.ofList text.reverse, ⟨c :: rest, line, column, offset⟩, gap.crosses⟩
    else if isLooseColon inFlow c rest then none
    else
      readPlain inFlow least line (column + 1) (offset + c.utf8Size) (c :: gap.reversed ++ text)
        Gap.none rest

/-! ## Quoted texts -/

/-- The character of a backslash with one letter. -/
def escaped? : Char → Option Char
  | '0' => some (Char.ofNat 0)
  | 'a' => some (Char.ofNat 7)
  | 'b' => some (Char.ofNat 8)
  | 't' | '\t' => some '\t'
  | 'n' => some '\n'
  | 'v' => some (Char.ofNat 11)
  | 'f' => some (Char.ofNat 12)
  | 'r' => some '\r'
  | 'e' => some (Char.ofNat 27)
  | ' ' => some ' '
  | '"' => some '"'
  | '/' => some '/'
  | '\\' => some '\\'
  | 'N' => some (Char.ofNat 0x85)
  | '_' => some (Char.ofNat 0xa0)
  | 'L' => some (Char.ofNat 0x2028)
  | 'P' => some (Char.ofNat 0x2029)
  | _ => none

/-- How many hexadecimal digits follow a backslash with this letter. -/
def codeLength? : Char → Option Nat
  | 'x' => some 2
  | 'u' => some 4
  | 'U' => some 8
  | _ => none

/-- The character with a code, if there is one. -/
def charOfCode? (code : Nat) : Option Char :=
  if code.isValidChar then some (Char.ofNat code) else none

/-- What the next character of a quoted text is part of. -/
inductive QuotedMode where
  | text
  /-- A backslash came before. -/
  | escape
  /-- A code with some digits left to read. -/
  | code (left value : Nat)
deriving Inhabited

/-- Reads a quoted text after its opening quote. -/
def readQuoted (double : Bool) (line column offset : Nat) (text : List Char) (gap : Gap)
    (mode : QuotedMode) : List Char → Option Reading
  | [] => none
  | c :: rest =>
    match mode with
    | .code left value =>
      match Text.digitValue? 16 c with
      | none => none
      | some digit =>
        let code := value * 16 + digit
        if left = 1 then
          match charOfCode? code with
          | none => none
          | some char =>
            readQuoted double line (column + 1) (offset + 1) (char :: text) gap .text rest
        else
          readQuoted double line (column + 1) (offset + 1) text gap (.code (left - 1) code) rest
    | .escape =>
      if isBreak c then
        readQuoted double (line + 1) 0 (offset + c.utf8Size) text (.breaks .none []) .text rest
      else
        match escaped? c, codeLength? c with
        | some char, _ =>
          readQuoted double line (column + 1) (offset + 1) (char :: text) gap .text rest
        | none, some length =>
          readQuoted double line (column + 1) (offset + 1) text gap (.code length 0) rest
        | none, none => none
    | .text =>
      if column = 0 && isDocumentMark (c :: rest) then none
      else if isGapChar c then
        readQuoted double line (column + 1) (offset + 1) text (gap.addBlank c) .text rest
      else if isBreak c then
        readQuoted double (line + 1) 0 (offset + c.utf8Size) text (gap.addBreak c) .text rest
      else
        let text := gap.reversed ++ text
        if double then
          if c = '"' then
            some ⟨String.ofList text.reverse, ⟨rest, line, column + 1, offset + 1⟩, false⟩
          else if c = '\\' then
            readQuoted double line (column + 1) (offset + 1) text Gap.none .escape rest
          else
            readQuoted double line (column + 1) (offset + c.utf8Size) (c :: text) Gap.none .text
              rest
        else if c = '\'' then
          match rest with
          | '\'' :: more =>
            readQuoted double line (column + 2) (offset + 2) ('\'' :: text) Gap.none .text more
          | _ => some ⟨String.ofList text.reverse, ⟨rest, line, column + 1, offset + 1⟩, false⟩
        else
          readQuoted double line (column + 1) (offset + c.utf8Size) (c :: text) Gap.none .text rest

end DefUse.Yaml
