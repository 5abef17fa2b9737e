/-
# `Yaml.Scanner` — a text cut into tokens

Collections in block form are not marked by characters: a key or an entry that is
indented further than what surrounds it opens a collection, and one that is
indented less closes it.  A text turns out to be a key only when the colon after
it is reached, so that its mark is put before it afterwards.  Such a *pending key*
has to be followed by its colon on the same line, within 1024 bytes.
-/
import DefUse.Yaml.Token

namespace DefUse.Yaml

/-- A text that may turn out to be a key. -/
structure PendingKey where
  /-- How many tokens come before it. -/
  position : Nat
  line : Nat
  column : Nat
  offset : Nat
  /-- Can it be nothing but a key? -/
  required : Bool
deriving Inhabited

/-- The state between two tokens. -/
structure Scanner where
  cursor : Cursor
  /-- The indentations of the open block collections, the innermost first. -/
  indents : List Nat
  /-- May a key stand here? -/
  keyAllowed : Bool
  pending : Option PendingKey
  /-- The pending keys outside each open flow collection, the innermost first. -/
  outer : List (Option PendingKey)
  tokens : List Token
deriving Inhabited

namespace Scanner

/-- Is a flow collection open? -/
def inFlow (scanner : Scanner) : Bool :=
  !scanner.outer.isEmpty

/-- Adds a token at the end. -/
def emit (token : Token) (scanner : Scanner) : Scanner :=
  { scanner with tokens := scanner.tokens ++ [token] }

/-- Adds a token at an earlier position. -/
def emitAt (position : Nat) (token : Token) (scanner : Scanner) : Scanner :=
  { scanner with
    tokens := scanner.tokens.take position ++ token :: scanner.tokens.drop position }

/-- Goes on by some characters. -/
def skip (count : Nat) (scanner : Scanner) : Scanner :=
  { scanner with cursor := scanner.cursor.skip count }

def allowKey (allowed : Bool) (scanner : Scanner) : Scanner :=
  { scanner with keyAllowed := allowed }

/-! ## Gaps between tokens -/

/-- Skips blanks, line ends and comments.  At a line's end outside of flow
collections keys become allowed; where they are, a tab is no blank.  A byte order
mark may begin a line and takes up a column. -/
def skipGapFrom (inFlow : Bool) (keyAllowed comment : Bool) (line column offset : Nat) :
    List Char → Cursor × Bool
  | [] => (⟨[], line, column, offset⟩, keyAllowed)
  | c :: rest =>
    if isBreak c then
      skipGapFrom inFlow (keyAllowed || !inFlow) false (line + 1) 0 (offset + c.utf8Size) rest
    else if comment || c = ' ' || (c = '\t' && (inFlow || !keyAllowed)) ||
        (column = 0 && isOrderMark c) then
      skipGapFrom inFlow keyAllowed comment line (column + 1) (offset + c.utf8Size) rest
    else if c = '#' then
      skipGapFrom inFlow keyAllowed true line (column + 1) (offset + 1) rest
    else (⟨c :: rest, line, column, offset⟩, keyAllowed)

/-- Goes to the next token. -/
def skipGap (scanner : Scanner) : Scanner :=
  let cursor := scanner.cursor
  let (cursor, keyAllowed) := skipGapFrom scanner.inFlow scanner.keyAllowed false cursor.line
    cursor.column cursor.offset cursor.rest
  { scanner with cursor := cursor, keyAllowed := keyAllowed }

/-! ## Keys -/

/-- A pending key is given up when its line is over or it is too long.  Fails if it
had to be a key. -/
def expireKey (cursor : Cursor) : Option PendingKey → Option (Option PendingKey)
  | none => some none
  | some key =>
    if key.line < cursor.line || key.offset + 1024 < cursor.offset then
      if key.required then none else some none
    else some (some key)

/-- Gives up the pending keys that are over. -/
def expire (scanner : Scanner) : Option Scanner := do
  let pending ← expireKey scanner.cursor scanner.pending
  let outer ← scanner.outer.mapM (expireKey scanner.cursor)
  return { scanner with pending := pending, outer := outer }

/-- Gives up the pending key.  Fails if it had to be a key. -/
def dropKey (scanner : Scanner) : Option Scanner :=
  match scanner.pending with
  | some key => if key.required then none else some { scanner with pending := none }
  | none => some scanner

/-- What comes next may turn out to be a key. -/
def saveKey (scanner : Scanner) : Option Scanner :=
  if scanner.keyAllowed then do
    let dropped ← scanner.dropKey
    let cursor := scanner.cursor
    let required := !scanner.inFlow && scanner.indents.head? == some cursor.column
    let key := ⟨scanner.tokens.length, cursor.line, cursor.column, cursor.offset, required⟩
    return { dropped with pending := some key }
  else some scanner

/-! ## Indentation -/

/-- Opens a block collection at a column, if it is indented further than the
innermost one. -/
def openBlock (column position : Nat) (token : Token) (scanner : Scanner) : Scanner :=
  let deeper := match scanner.indents with
    | [] => true
    | indent :: _ => indent < column
  if !scanner.inFlow && deeper then
    { scanner.emitAt position token with indents := column :: scanner.indents }
  else scanner

/-- Closes the block collections whose indentation fulfils `past`. -/
def closeBlocks (past : Nat → Bool) (scanner : Scanner) : Scanner :=
  if scanner.inFlow then scanner
  else
    let closed := scanner.indents.takeWhile past
    { scanner with
      indents := scanner.indents.dropWhile past
      tokens := scanner.tokens ++ List.replicate closed.length .blockEnd }

/-! ## Tokens -/

/-- A document mark, which closes everything. -/
def mark (token : Token) (scanner : Scanner) : Option Scanner := do
  let closed ← (scanner.closeBlocks fun _ => true).dropKey
  return ((closed.allowKey false).skip 3).emit token

/-- The start of a flow collection. -/
def openFlow (token : Token) (scanner : Scanner) : Option Scanner := do
  let saved ← scanner.saveKey
  let inside := { saved with pending := none, outer := saved.pending :: saved.outer }
  return ((inside.allowKey true).skip 1).emit token

/-- The end of a flow collection. -/
def closeFlow (token : Token) (scanner : Scanner) : Option Scanner := do
  let dropped ← scanner.dropKey
  let outside := match dropped.outer with
    | [] => dropped
    | pending :: outer => { dropped with pending := pending, outer := outer }
  return ((outside.allowKey false).skip 1).emit token

/-- The comma between the entries of a flow collection. -/
def flowEntry (scanner : Scanner) : Option Scanner := do
  let dropped ← scanner.dropKey
  return ((dropped.allowKey true).skip 1).emit .flowEntry

/-- The dash before an entry of a block sequence. -/
def blockEntry (scanner : Scanner) : Option Scanner := do
  if !scanner.inFlow && !scanner.keyAllowed then none
  else
    let opened := scanner.openBlock scanner.cursor.column scanner.tokens.length .blockSequenceStart
    let dropped ← opened.dropKey
    return ((dropped.allowKey true).skip 1).emit .blockEntry

/-- The question mark before a key. -/
def explicitKey (scanner : Scanner) : Option Scanner := do
  if !scanner.inFlow && !scanner.keyAllowed then none
  else
    let opened := scanner.openBlock scanner.cursor.column scanner.tokens.length .blockMappingStart
    let dropped ← opened.dropKey
    return ((dropped.allowKey !scanner.inFlow).skip 1).emit .key

/-- The colon before a value.  A pending key becomes a key. -/
def valueMark (scanner : Scanner) : Option Scanner :=
  match scanner.pending with
  | some key =>
    let keyed := (scanner.emitAt key.position .key).openBlock key.column key.position
      .blockMappingStart
    some ((({ keyed with pending := none }.allowKey false).skip 1).emit .value)
  | none =>
    if !scanner.inFlow && !scanner.keyAllowed then none
    else
      let opened := scanner.openBlock scanner.cursor.column scanner.tokens.length
        .blockMappingStart
      some (((opened.allowKey !scanner.inFlow).skip 1).emit .value)

/-- A quoted text. -/
def quoted (double : Bool) (scanner : Scanner) : Option Scanner := do
  let saved ← scanner.saveKey
  let start := saved.cursor.skip 1
  let reading ← readQuoted double start.line start.column start.offset [] Gap.none .text start.rest
  return ({ saved with cursor := reading.cursor }.allowKey false).emit (.scalar false reading.text)

/-- A plain text. -/
def plain (scanner : Scanner) : Option Scanner := do
  let saved ← scanner.saveKey
  let least := match saved.indents with
    | [] => 0
    | indent :: _ => indent + 1
  let start := saved.cursor
  let reading ← readPlain saved.inFlow least start.line start.column start.offset [] Gap.none
    start.rest
  return ({ saved with cursor := reading.cursor }.allowKey reading.crossed).emit
    (.scalar true reading.text)

/-- Can a plain text begin with `c`? -/
def plainStarts (inFlow : Bool) (c : Char) (rest : List Char) : Bool :=
  let indicators := ['-', '?', ':', ',', '[', ']', '\x7b', '\x7d', '#', '&', '*', '!', '|', '>',
    '\'', '"', '%', '@', Char.ofNat 0x60]
  (!wordEnds [c] && !indicators.contains c) ||
  (c = '-' && !(rest.head?.any isGapChar)) ||
  (!inFlow && (c = '?' || c = ':') && !wordEnds rest)

/-- The token that begins with `c`. -/
def token (c : Char) (rest : List Char) (scanner : Scanner) : Option Scanner :=
  let atStart := scanner.cursor.column = 0
  if atStart && isMark ['-', '-', '-'] (c :: rest) then scanner.mark .documentStart
  else if atStart && isMark ['.', '.', '.'] (c :: rest) then scanner.mark .documentEnd
  else if atStart && c = '%' then none
  else if c = '[' then scanner.openFlow .flowSequenceStart
  else if c = '\x7b' then scanner.openFlow .flowMappingStart
  else if c = ']' then scanner.closeFlow .flowSequenceEnd
  else if c = '\x7d' then scanner.closeFlow .flowMappingEnd
  else if c = ',' then scanner.flowEntry
  else if c = '-' && wordEnds rest then scanner.blockEntry
  else if c = '?' && (scanner.inFlow || wordEnds rest) then scanner.explicitKey
  else if c = ':' && (scanner.inFlow || wordEnds rest) then scanner.valueMark
  else if c = '\'' then scanner.quoted false
  else if c = '"' then scanner.quoted true
  else if plainStarts scanner.inFlow c rest then scanner.plain
  else none

/-- Takes tokens until the text ends; every token takes at least one character, so
that the length of the text is fuel enough. -/
def run : Nat → Scanner → Option (List Token)
  | 0, _ => none
  | fuel + 1, scanner => do
    let ready ← scanner.skipGap.expire
    let settled := ready.closeBlocks fun indent => ready.cursor.column < indent
    match settled.cursor.rest with
    | [] =>
      let done ← (settled.closeBlocks fun _ => true).dropKey
      return done.tokens
    | c :: rest => run fuel (← settled.token c rest)

end Scanner

/-- The tokens of a text. -/
def Token.scan (text : String) : Option (List Token) :=
  let chars := unifyBreaks text.toList
  if chars.all isAllowed then
    Scanner.run (chars.length + 1) ⟨⟨chars, 0, 0, 0⟩, [], true, none, [], []⟩
  else none

end DefUse.Yaml
