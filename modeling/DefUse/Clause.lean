/-
# `Clause` — the parts of structured statements
-/
import DefUse.Tree.Node

namespace DefUse

open DefUse.Tree

/-- The statement of the `else` of an `if`. -/
def elseArm? (statement : Node) : Option Node :=
  match statement.field? .alternative with
  | none => none
  | some alternative =>
    if alternative.kind = .elseClause then alternative.firstNamed? else some alternative

/-- The parts of a `for` with three clauses. -/
structure ForClauses where
  initializer : Option Node
  condition : Option Node
  increment : Option Node
  body : Option Node
deriving Inhabited

namespace ForClauses

/-- Is the clause more than its semicolon? -/
def present (node : Node) : Bool :=
  node.isNamed && node.kind ≠ .emptyStatement

/-- The expression of a condition that may be written as a statement. -/
def expression? (node : Node) : Option Node :=
  if node.kind = .expressionStatement then node.firstNamed? else some node

/-- The clauses of a `for`; what is left out is absent. -/
def ofNode (statement : Node) : ForClauses where
  initializer := (statement.field? .initializer).filter present
  condition := ((statement.field? .condition).filter present).bind expression?
  increment := (statement.field? .increment).filter present
  body := statement.field? .body

end ForClauses

end DefUse
