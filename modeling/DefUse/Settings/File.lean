/-
# `Settings.File` — settings from a file

A settings file is a mapping; what it leaves out has its default, and keys that
mean nothing are passed over.  A file can be read in two ways.

* `Config.ofYaml?` reads it for the settings alone.  Then every key is taken as a
  text, and only the settings' own keys must not occur twice.
* `Yaml.Library.load` first takes the file as a value of its own, which can fail for
  reasons that have nothing to do with settings, and then looks for the settings in
  it.  Then an explicit null stands for an empty mapping, and every key has to be a
  text.

Reading YAML is the work of a library, and of the second way no more is said than what a
library is asked for (`Yaml.Library`).  The command runs with `Yaml.Library.plain`, which
knows a small part of the language: it refuses files with block texts, anchors, tags or
directives, which other libraries load.
-/
import DefUse.Analysis
import DefUse.Yaml.Value

namespace DefUse

open Yaml (Scalar)

/-- The entries of a mapping with their keys as texts. -/
abbrev Entries := List (String × Yaml.Node)

namespace Entries

/-- Reads the value of a key, which must not occur twice; without it the default
holds. -/
def read? {α : Type} (key : String) (default : α) (read : Yaml.Node → Option α)
    (entries : Entries) : Option α :=
  match entries.filter fun entry => entry.1 = key with
  | [] => some default
  | [(_, node)] => read node
  | _ => none

end Entries

namespace Settings

/-- A truth value is a plain word. -/
def readSwitch? : Yaml.Node → Option Bool
  | .scalar true text => Scalar.readBool? text
  | _ => none

/-- The name of a dialect, plain or quoted. -/
def readDialect? : Yaml.Node → Option Dialect
  | .scalar _ text => Dialect.ofName? text
  | _ => none

/-- The choice of passes in the entries of a mapping. -/
def simplification? (entries : Entries) : Option Simplification := do
  let default : Simplification := {}
  return {
    emptyJumps := ← entries.read? "eliminate_empty_jumps" default.emptyJumps readSwitch?
    trueBranches := ← entries.read? "eliminate_true_branches" default.trueBranches readSwitch?
    mergeChains := ← entries.read? "merge_jump_chains" default.mergeChains readSwitch?
    split := ← entries.read? "split" default.split readSwitch? }

/-- The settings in the entries of a mapping.  `number` reads a number, `inner` the
entries of a mapping inside. -/
def config? (number : Yaml.Node → Option Nat) (inner : Yaml.Node → Option Entries)
    (entries : Entries) : Option Config := do
  let default : Config := {}
  return {
    dialect := ← entries.read? "dialect" default.dialect readDialect?
    simplify := ← entries.read? "simplify" default.simplify fun node => do
      simplification? (← inner node)
    maxVisits := ← entries.read? "max_visits" default.maxVisits number
    dependsEdges := ← entries.read? "depends_edges" default.dependsEdges readSwitch? }

/-! ## Settings alone -/

/-- A number, plain and without a sign. -/
def readNumber? : Yaml.Node → Option Nat
  | .scalar true text => Scalar.readUnsigned? Text.maxUnsigned text
  | _ => none

/-- A key taken as a text. -/
def keyText? : Yaml.Node × Yaml.Node → Option (String × Yaml.Node)
  | (.scalar _ text, value) => some (text, value)
  | _ => none

/-- The entries of a mapping; nothing at all is an empty mapping. -/
def entries? : Yaml.Node → Option Entries
  | .scalar true "" => some []
  | .mapping entries => entries.mapM keyText?
  | _ => none

/-! ## Settings in a value -/

/-- A number that means a whole number without a sign. -/
def meantNumber? : Yaml.Node → Option Nat
  | .scalar plain text =>
    match Yaml.Node.meaning plain text with
    | .unsigned value => some value
    | _ => none
  | _ => none

/-- A key that means a text. -/
def meantKey? : Yaml.Node × Yaml.Node → Option (String × Yaml.Node)
  | (.scalar plain text, value) =>
    match Yaml.Node.meaning plain text with
    | .text text => some (text, value)
    | _ => none
  | _ => none

/-- The entries of a mapping; null is an empty mapping. -/
def meantEntries? : Yaml.Node → Option Entries
  | .scalar plain text => if Yaml.Node.meaning plain text = .null then some [] else none
  | .mapping entries => entries.mapM meantKey?
  | _ => none

/-- Does a mapping have the key? -/
def hasKey (key : String) : Yaml.Node → Bool
  | .mapping entries => (entries.filterMap meantKey?).any fun entry => entry.1 = key
  | _ => false

end Settings

namespace Config

open Settings

/-- Reads the settings of a text. -/
def ofYaml? (text : String) : Option Config := do
  match ← Yaml.Node.parse? text with
  | none => return {}
  | some node => config? readNumber? entries? (← entries? node)

end Config

/-- Why a settings file cannot be used. -/
inductive FileFault where
  /-- It is no value. -/
  | unreadable
  /-- It is a value of another shape. -/
  | misshapen
deriving DecidableEq, Inhabited

namespace Yaml

/-- What is asked of a library that reads YAML. -/
structure Library where
  /-- What texts stand for. -/
  Value : Type
  /-- The value that a text stands for, if it can be read. -/
  value? : String → Option Value
  /-- Is the text a key of the value? -/
  hasKey : String → Value → Bool
  /-- The settings in a value, if it has their shape. -/
  config? : Value → Option Config

namespace Library

/-- Reads a settings file: the settings, and whether it names a dialect. -/
def load (library : Library) (text : String) : Except FileFault (Config × Bool) :=
  match library.value? text with
  | none => .error .unreadable
  | some value =>
    match library.config? value with
    | none => .error .misshapen
    | some config => .ok (config, library.hasKey "dialect" value)

open Settings in
/-- Reads what is written with plain and quoted texts, in block or in flow collections. -/
def plain : Library where
  Value := Node
  value? text := do
    let node := (← Node.parse? text).getD Node.omitted
    if node.isValue then some node else none
  hasKey := Settings.hasKey
  config? node := do Settings.config? meantNumber? meantEntries? (← meantEntries? node)

end Library

end Yaml

end DefUse
