/-
# `Dependency.Listing` — dependencies as text

Two forms: one with a line per read and its assignments below it, and one with a
line per read and assignment.
-/
import DefUse.Dependency.Basic
import DefUse.Program

namespace DefUse

open DefUse.Tree

namespace Program

/-- A read with its assignments indented below it. -/
def nestedEntry (program : Program) (entry : Site × List Assignment) : String :=
  let (read, reaching) := entry
  program.text read ++ " (line " ++ toString read.line ++ ")\n" ++
    String.join (reaching.map fun assignment =>
      "  <- " ++ program.text assignment.site ++
        " (line " ++ toString assignment.site.line ++ ")\n")

/-- The dependencies, with assignments below their reads. -/
def nestedText (program : Program) (dependencies : Dependencies) : String :=
  String.join (dependencies.reads.map program.nestedEntry)

/-- A read with one line per assignment, or one line that says there is none. -/
def flatEntry (program : Program) (entry : Site × List Assignment) : String :=
  let (read, reaching) := entry
  let subject := program.text read ++ " at :" ++ toString read.line
  if reaching.isEmpty then subject ++ " has no reaching assignment\n"
  else
    String.join (reaching.map fun assignment =>
      subject ++ " depends on assignment at :" ++ toString assignment.site.line ++
        " (" ++ program.text assignment.site ++ ")\n")

/-- The dependencies, one line per pair. -/
def flatText (program : Program) (dependencies : Dependencies) : String :=
  String.join (dependencies.reads.map program.flatEntry)

end Program

/-- The reads of the variables spelled `name`, in document order. -/
def Dependencies.readsOf (program : Program) (name : String) (dependencies : Dependencies) :
    ReadMap :=
  dependencies.reads.filter fun entry => program.text entry.1 = name

end DefUse
