/-
# `Settings.Path` — what a path says of the file

The name of a file is the last part of its path.  Its extension is what follows
the last dot of the name, unless that dot is the name's first character.
-/
import DefUse.Program
import DefUse.Text.Lowercase

namespace DefUse.Path

/-- The parts of a path; empty parts and single dots count for nothing. -/
def parts (path : String) : List String :=
  ((path.toList.splitOn '/').map String.ofList).filter fun part => part ≠ "" && part ≠ "."

/-- The name of the file, if the path does not end by going up. -/
def fileName? (path : String) : Option String :=
  match (parts path).getLast? with
  | some ".." => none
  | name => name

/-- The characters after the last dot, if something comes before the dot. -/
def extensionOf? (name : List Char) : Option (List Char) :=
  match name.reverse.span (· ≠ '.') with
  | (_, []) => none
  | (_, [_]) => none
  | (reversed, _) => some reversed.reverse

/-- The extension of the file's name. -/
def extension? (path : String) : Option String := do
  let name ← fileName? path
  return String.ofList (← extensionOf? name.toList)

/-- The dialect that a file's extension stands for. -/
def dialect? (path : String) : Option Dialect := do
  match Text.lowercase (← extension? path) with
  | "ts" | "tsx" | "mts" | "cts" => some .typescript
  | "js" | "jsx" | "mjs" | "cjs" => some .javascript
  | _ => none

end DefUse.Path
