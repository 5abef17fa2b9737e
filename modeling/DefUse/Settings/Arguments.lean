/-
# `Settings.Arguments` — the command line

Options take a value, after an equals sign or as the next argument; flags take
none; one argument is the path of the source.  All but `--set` may be given once.

An option's value in the next argument, and the path, are looked at only when the
next known option or the end is reached.  So a fault that is met before hides one
in a value.
-/
import DefUse.Program

namespace DefUse

/-- What the command prints. -/
inductive Format where
  /-- The graph, then the dependencies with assignments below their reads. -/
  | text
  /-- The graph, then one line per dependency. -/
  | flat
  /-- A diagram as an interchange value. -/
  | json
  /-- A diagram as a flowchart. -/
  | mermaid
deriving DecidableEq, Inhabited

/-- The format with a name. -/
def Format.ofName? : String → Option Format
  | "text" => some text
  | "flat" => some flat
  | "json" => some json
  | "mermaid" => some mermaid
  | _ => none

/-- Why a command line is not accepted. -/
inductive UsageFault where
  | unknownArgument
  | missingArgument
  /-- A value that is missing or not possible. -/
  | invalidValue
  /-- Something given twice. -/
  | conflict
  /-- A value for a flag. -/
  | tooManyValues
  /-- Only help was asked for. -/
  | helpRequested
deriving DecidableEq, Inhabited

/-- What takes a value. -/
inductive Valued where
  | config
  | dialect
  | format
  | set
  /-- The path of the source, which has no name on the command line. -/
  | path
deriving DecidableEq, Inhabited

/-- What takes no value. -/
inductive Flag where
  | split
  | mergeChains
  | noSimplify
  | lexical
  | noDepends
  | help
deriving DecidableEq, Inhabited

/-- The option with a name. -/
def Valued.ofName? : String → Option Valued
  | "config" => some config
  | "dialect" => some dialect
  | "format" => some format
  | "set" => some set
  | _ => none

/-- The flag with a name. -/
def Flag.ofName? : String → Option Flag
  | "split" => some split
  | "merge-chains" => some mergeChains
  | "no-simplify" => some noSimplify
  | "lexical" => some lexical
  | "no-depends" => some noDepends
  | "help" => some help
  | _ => none

/-- What a command line asks for. -/
structure Arguments where
  /-- The path of the settings file. -/
  config : String := "flowscope.yml"
  dialect : Option Dialect := none
  format : Format := .text
  flags : List Flag := []
  /-- Single settings, in order. -/
  sets : List String := []
  /-- The path of the source. -/
  path : String
deriving DecidableEq, Inhabited

/-- Is a flag given? -/
def Arguments.has (arguments : Arguments) (flag : Flag) : Bool :=
  arguments.flags.contains flag

/-- The arguments accepted so far. -/
structure ArgumentDraft where
  config : Option String := none
  dialect : Option Dialect := none
  format : Option Format := none
  flags : List Flag := []
  sets : List String := []
  path : Option String := none
  /-- An option or a path that is still to be looked at, with its value. -/
  pending : Option (Valued × Option String) := none
  /-- Was a path given, looked at or not? -/
  pathGiven : Bool := false
  /-- Are all further arguments paths? -/
  onlyPaths : Bool := false
deriving Inhabited

namespace ArgumentDraft

/-- Stores a value that must not have been given before. -/
def once {α : Type} (old : Option α) (new : Option α) : Except UsageFault (Option α) :=
  match old, new with
  | some _, _ => .error .conflict
  | none, none => .error .invalidValue
  | none, some value => .ok (some value)

/-- A path that is not empty. -/
def nonEmpty? (value : String) : Option String :=
  if value = "" then none else some value

/-- Takes the value of an option. -/
def accept (draft : ArgumentDraft) (option : Valued) (value : String) :
    Except UsageFault ArgumentDraft := do
  match option with
  | .config => return { draft with config := ← once draft.config (nonEmpty? value) }
  | .dialect => return { draft with dialect := ← once draft.dialect (Dialect.ofName? value) }
  | .format => return { draft with format := ← once draft.format (Format.ofName? value) }
  | .path => return { draft with path := ← once draft.path (nonEmpty? value) }
  | .set => return { draft with sets := draft.sets ++ [value] }

/-- Looks at what is pending. -/
def settle (draft : ArgumentDraft) : Except UsageFault ArgumentDraft :=
  match draft.pending with
  | none => .ok draft
  | some (_, none) => .error .invalidValue
  | some (option, some value) => { draft with pending := none }.accept option value

/-- Takes a flag. -/
def acceptFlag (draft : ArgumentDraft) (flag : Flag) : Except UsageFault ArgumentDraft := do
  let settled ← draft.settle
  if flag = .help then .error .helpRequested
  else if settled.flags.contains flag then .error .conflict
  else return { settled with flags := settled.flags ++ [flag] }

/-- Takes an argument that begins with two dashes: its name, and its value if there
is one. -/
def acceptLong (draft : ArgumentDraft) (name : String) (value : Option String) :
    Except UsageFault ArgumentDraft :=
  match Valued.ofName? name, Flag.ofName? name, value with
  | some option, _, some value => do (← draft.settle).accept option value
  | some option, _, none => do
    return { ← draft.settle with pending := some (option, none) }
  | none, some flag, none => draft.acceptFlag flag
  | none, some _, some _ => .error .tooManyValues
  | none, none, _ => .error .unknownArgument

/-- Takes an argument that is no option: the value of the option before it, or the
path. -/
def acceptPlain (draft : ArgumentDraft) (argument : String) : Except UsageFault ArgumentDraft :=
  match draft.pending, draft.onlyPaths with
  | some (option, none), false => .ok { draft with pending := some (option, some argument) }
  | _, _ =>
    if draft.pathGiven then .error .unknownArgument
    else do
      return { ← draft.settle with
        pending := some (.path, some argument), pathGiven := true }

/-- Takes one argument. -/
def take (draft : ArgumentDraft) (argument : String) : Except UsageFault ArgumentDraft :=
  if draft.onlyPaths then draft.acceptPlain argument
  else
    match argument.toList with
    | ['-', '-'] => .ok { draft with onlyPaths := true }
    | '-' :: '-' :: rest =>
      let name := String.ofList (rest.takeWhile (· ≠ '='))
      match rest.dropWhile (· ≠ '=') with
      | [] => draft.acceptLong name none
      | _ :: value => draft.acceptLong name (some (String.ofList value))
    | '-' :: 'h' :: _ => draft.acceptFlag .help
    | '-' :: _ :: _ => .error .unknownArgument
    | _ => draft.acceptPlain argument

/-- The arguments, if the path is given. -/
def finish (draft : ArgumentDraft) : Except UsageFault Arguments := do
  let settled ← draft.settle
  match settled.path with
  | none => .error .missingArgument
  | some path =>
    return {
      config := settled.config.getD "flowscope.yml"
      dialect := settled.dialect
      format := settled.format.getD .text
      flags := settled.flags
      sets := settled.sets
      path := path }

end ArgumentDraft

/-- Reads a command line. -/
def Arguments.parse (arguments : List String) : Except UsageFault Arguments := do
  (← arguments.foldlM ArgumentDraft.take {}).finish

end DefUse
