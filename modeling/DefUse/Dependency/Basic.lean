/-
# `Dependency.Basic` — which assignments a read depends on

The result of both analyses: for every read, the assignments that may have
produced its value.  Reads are kept in document order, and so are the
assignments of each; no read is listed twice, and no assignment twice under one
read.  Beside them stand the events an analysis has to report without failing.
-/
import DefUse.Effect.Basic
import DefUse.Sorted

namespace DefUse

open DefUse.Tree

/-- Assignments in document order, each once. -/
def Assignment.arrange (assignments : List Assignment) : List Assignment :=
  Sorted.ofList (fun a b => a.site.before b.site) assignments

/-- For each read, in document order, the assignments it depends on. -/
abbrev ReadMap := List (Site × List Assignment)

/-- Notes what a read depends on, instead of anything noted of it before. -/
def ReadMap.record (read : Site) (reaching : List Assignment) : ReadMap → ReadMap
  | [] => [(read, reaching)]
  | entry :: rest =>
    if read = entry.1 then (read, reaching) :: rest
    else if read.before entry.1 then (read, reaching) :: entry :: rest
    else entry :: ReadMap.record read reaching rest

/-- How grave an event is. -/
inductive Severity where
  | warning
  | error
deriving DecidableEq, Inhabited

/-- Something an analysis passes over and reports. -/
inductive Event where
  /-- A write to a variable without a name. -/
  | unresolvedTarget (name : String) (line : Nat)
  /-- A write to a variable that is not in scope. -/
  | undeclaredName (name : String) (line : Nat)
  /-- The visits were used up before the result was complete. -/
  | notConverged (maxVisits : Nat)
deriving DecidableEq, Inhabited

namespace Event

def severity : Event → Severity
  | unresolvedTarget _ _ | undeclaredName _ _ => .warning
  | notConverged _ => .error

def message : Event → String
  | unresolvedTarget _ _ => "unresolved assignment target, skipped"
  | undeclaredName _ _ => "assignment to undeclared name, skipped"
  | notConverged _ => "reaching definitions did not converge; result is truncated"

end Event

/-- The data dependencies of a program. -/
structure Dependencies where
  reads : ReadMap
  /-- Was the analysis cut short? -/
  truncated : Bool
  /-- What was reported on the way, in order. -/
  events : List Event
deriving DecidableEq, Inhabited

end DefUse
