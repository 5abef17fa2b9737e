/-
# `Main` — the command on a real file system

Reads the two files that the command line names and the table of the source's
syntax tree, which a parser has left beside the source under the source's path
with the dialect and `tree` added to it.
-/
import DefUse.Command
import DefUse.Tree.Row

namespace DefUse

/-- Reads a file. -/
def readState (path : String) : IO FileState := do
  try
    return .text (← IO.FS.readFile path)
  catch
    | .noFileOrDirectory .. => return .missing
    | .inappropriateType _ code _ =>
      return if code = 20 then .notDirectory else .directory
    | .invalidArgument _ 36 _ => return .tooLong
    | error => return .unreadable (toString error)

/-- Reads the tree of a source in a dialect. -/
def readTree (path : String) (dialect : Dialect) : IO (Option Tree.Node) := do
  match ← readState (path ++ "." ++ dialect.name ++ ".tree") with
  | .text table => return Tree.Node.ofTable? table
  | _ => return none

/-- A word on what is wrong with a command line. -/
def UsageFault.message : UsageFault → String
  | unknownArgument => "unexpected argument"
  | missingArgument => "the path of a source is required"
  | invalidValue => "an option has no possible value"
  | conflict => "an argument is given more than once"
  | tooManyValues => "a flag takes no value"
  | helpRequested => "usage: [OPTIONS] <PATH>"

end DefUse

open DefUse in
/-- Runs the command. -/
def main (arguments : List String) : IO UInt32 := do
  match Arguments.parse arguments with
  | .error .helpRequested =>
    IO.println UsageFault.helpRequested.message
    return 0
  | .error fault =>
    IO.eprintln ("error: " ++ fault.message)
    return 2
  | .ok accepted =>
    let typescript ← readTree accepted.path .typescript
    let javascript ← readTree accepted.path .javascript
    let tree := fun dialect =>
      match dialect with
      | .typescript => typescript
      | .javascript => javascript
    let outcome := accepted.run (← readState accepted.config) (← readState accepted.path) tree
    IO.print outcome.stdout
    IO.eprint outcome.stderr
    return UInt32.ofNat outcome.exit
