/-
# `Yaml.Node` — a settings file as a tree

Only a small part of YAML is read (`Yaml.Token`).  A file holds one document; a file
without any token holds none.  What is left out, such as a value after its colon, is an
empty plain text.
-/
import DefUse.Yaml.Scanner

namespace DefUse.Yaml

/-- A value of a document. -/
inductive Node where
  | scalar (plain : Bool) (text : String)
  | sequence (items : List Node)
  | mapping (entries : List (Node × Node))
deriving Inhabited

namespace Node

/-- What stands for something left out. -/
def omitted : Node :=
  scalar true ""

/-- Does a key or a value of a block mapping end before the tokens? -/
def blockEntryEnds : List Token → Bool
  | .key :: _ | .value :: _ | .blockEnd :: _ => true
  | _ => false

/-- Does an item of a block sequence end before the tokens? -/
def blockItemEnds : List Token → Bool
  | .blockEntry :: _ | .blockEnd :: _ => true
  | _ => false

/-- Does an item of a sequence without indentation of its own end before the tokens? -/
def dashItemEnds (tokens : List Token) : Bool :=
  blockItemEnds tokens || blockEntryEnds tokens

/-- Does an item of a flow sequence end before the tokens? -/
def flowItemEnds : List Token → Bool
  | .flowEntry :: _ | .flowSequenceEnd :: _ => true
  | _ => false

/-- Does an entry of a flow mapping end before the tokens? -/
def flowEntryEnds : List Token → Bool
  | .flowEntry :: _ | .flowMappingEnd :: _ => true
  | _ => false

/-- Does a key end before the tokens: at its value, or where the whole entry ends? -/
def keyEnds (entryEnds : List Token → Bool) (tokens : List Token) : Bool :=
  match tokens with
  | .value :: _ => true
  | tokens => entryEnds tokens

mutual

/-- Reads a node and returns the tokens after it.  `block` says whether it may be in
block form, `dashes` whether a sequence may stand without indentation of its own. -/
def read (block dashes : Bool) : Nat → List Token → Option (Node × List Token)
  | 0, _ => none
  | fuel + 1, tokens =>
    match tokens with
    | .scalar plain text :: rest => some (scalar plain text, rest)
    | .flowSequenceStart :: rest => do
      let (items, rest) ← readFlowItems true fuel rest
      return (sequence items, rest)
    | .flowMappingStart :: rest => do
      let (entries, rest) ← readFlowEntries true fuel rest
      return (mapping entries, rest)
    | .blockSequenceStart :: rest =>
      if block then do
        let (items, rest) ← readBlockItems fuel rest
        return (sequence items, rest)
      else none
    | .blockMappingStart :: rest =>
      if block then do
        let (entries, rest) ← readBlockEntries fuel rest
        return (mapping entries, rest)
      else none
    | .blockEntry :: _ =>
      if dashes then do
        let (items, rest) ← readDashes fuel tokens
        return (sequence items, rest)
      else none
    | _ => none

/-- Reads a node unless it is left out. -/
def readUnless (ends : List Token → Bool) (block dashes : Bool) :
    Nat → List Token → Option (Node × List Token)
  | 0, _ => none
  | fuel + 1, tokens =>
    if ends tokens then some (omitted, tokens) else read block dashes fuel tokens

/-- Reads the items of a block sequence. -/
def readBlockItems : Nat → List Token → Option (List Node × List Token)
  | 0, _ => none
  | fuel + 1, tokens =>
    match tokens with
    | .blockEntry :: rest => do
      let (item, rest) ← readUnless blockItemEnds true false fuel rest
      let (items, rest) ← readBlockItems fuel rest
      return (item :: items, rest)
    | .blockEnd :: rest => some ([], rest)
    | _ => none

/-- Reads the items of a sequence that has no indentation of its own. -/
def readDashes : Nat → List Token → Option (List Node × List Token)
  | 0, _ => none
  | fuel + 1, tokens =>
    match tokens with
    | .blockEntry :: rest => do
      let (item, rest) ← readUnless dashItemEnds true false fuel rest
      let (items, rest) ← readDashes fuel rest
      return (item :: items, rest)
    | _ => some ([], tokens)

/-- Reads the entries of a block mapping. -/
def readBlockEntries : Nat → List Token → Option (List (Node × Node) × List Token)
  | 0, _ => none
  | fuel + 1, tokens =>
    match tokens with
    | .key :: rest => do
      let (key, rest) ← readUnless blockEntryEnds true true fuel rest
      let (value, rest) ← readValue blockEntryEnds true fuel rest
      let (entries, rest) ← readBlockEntries fuel rest
      return ((key, value) :: entries, rest)
    | .blockEnd :: rest => some ([], rest)
    | _ => none

/-- Reads the value after a key, if there is one. -/
def readValue (ends : List Token → Bool) (block : Bool) :
    Nat → List Token → Option (Node × List Token)
  | 0, _ => none
  | fuel + 1, tokens =>
    match tokens with
    | .value :: rest => readUnless ends block block fuel rest
    | _ => some (omitted, tokens)

/-- Reads the items of a flow sequence; an item may be a single entry of a mapping. -/
def readFlowItems (first : Bool) : Nat → List Token → Option (List Node × List Token)
  | 0, _ => none
  | fuel + 1, tokens =>
    match tokens, first with
    | .flowSequenceEnd :: rest, _ => some ([], rest)
    | .flowEntry :: rest, false => readFlowItem fuel rest
    | tokens, true => readFlowItem fuel tokens
    | _, false => none

/-- Reads one item of a flow sequence and those after it.  Where the key of an item
is left out, the one token after it goes with it. -/
def readFlowItem : Nat → List Token → Option (List Node × List Token)
  | 0, _ => none
  | fuel + 1, tokens =>
    match tokens with
    | .flowSequenceEnd :: rest => some ([], rest)
    | .key :: rest => do
      let (key, rest) ←
        if keyEnds flowItemEnds rest then some (omitted, rest.drop 1)
        else read false false fuel rest
      let (value, rest) ← readValue flowItemEnds false fuel rest
      let (items, rest) ← readFlowItems false fuel rest
      return (mapping [(key, value)] :: items, rest)
    | tokens => do
      let (item, rest) ← read false false fuel tokens
      let (items, rest) ← readFlowItems false fuel rest
      return (item :: items, rest)

/-- Reads the entries of a flow mapping. -/
def readFlowEntries (first : Bool) : Nat → List Token → Option (List (Node × Node) × List Token)
  | 0, _ => none
  | fuel + 1, tokens =>
    match tokens, first with
    | .flowMappingEnd :: rest, _ => some ([], rest)
    | .flowEntry :: rest, false => readFlowEntry fuel rest
    | tokens, true => readFlowEntry fuel tokens
    | _, false => none

/-- Reads one entry of a flow mapping and those after it; a key may stand alone. -/
def readFlowEntry : Nat → List Token → Option (List (Node × Node) × List Token)
  | 0, _ => none
  | fuel + 1, tokens =>
    match tokens with
    | .flowMappingEnd :: rest => some ([], rest)
    | .key :: rest => do
      let (key, rest) ← readUnless (keyEnds flowEntryEnds) false false fuel rest
      let (value, rest) ← readValue flowEntryEnds false fuel rest
      let (entries, rest) ← readFlowEntries false fuel rest
      return ((key, value) :: entries, rest)
    | tokens => do
      let (key, rest) ← read false false fuel tokens
      let (entries, rest) ← readFlowEntries false fuel rest
      return ((key, omitted) :: entries, rest)

end

/-- Reads a node of a document.  Three steps at most are taken for one token. -/
def readDocument (tokens : List Token) : Option (Node × List Token) :=
  match tokens with
  | [] | .documentStart :: _ | .documentEnd :: _ => some (omitted, tokens)
  | tokens => read true false (3 * tokens.length + 3) tokens

/-- The document that the tokens of a file make up, if they make up at most one. -/
def ofTokens? (tokens : List Token) : Option (Option Node) := do
  match tokens with
  | [] => return none
  | .documentEnd :: _ => none
  | tokens =>
    let content := match tokens with
      | .documentStart :: rest => rest
      | tokens => tokens
    let (node, rest) ← readDocument content
    if (rest.dropWhile fun token => token = .documentEnd).isEmpty then return some node
    else none

/-- Reads a file: nothing if it is broken, otherwise its document, if it has one. -/
def parse? (text : String) : Option (Option Node) := do
  ofTokens? (← Token.scan text)

end Node

end DefUse.Yaml
