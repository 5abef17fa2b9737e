/-
# `Graph.Block` — blocks and how control leaves them

A block is a list of simple statements without a jump between them, and one
exit.  Blocks refer to each other by their index in the graph.
-/
import DefUse.Error
import DefUse.Tree.Node

namespace DefUse

open DefUse.Tree

/-- The index of a block in its graph. -/
abbrev BlockId := Nat

/-- What a branch tests. -/
inductive Condition where
  /-- Nothing: the branch is taken always. -/
  | always
  | test (node : Node)
deriving Inhabited

namespace Condition

/-- Does the branch hold whatever the state: nothing is tested, or the literal
`true`? -/
def isAlwaysTrue : Condition → Bool
  | always => true
  | test node => node.unparenthesized.kind = .trueLiteral

/-- Is there nothing to test? -/
def isAlways : Condition → Bool
  | always => true
  | test _ => false

end Condition

/-- How control leaves a block. -/
inductive Exit where
  /-- The run ends, with a value or without. -/
  | ret (value : Option Node)
  | jump (next : BlockId)
  | branch (condition : Condition) (onTrue onFalse : BlockId)
  /-- Not decided yet. -/
  | unset
deriving Inhabited

namespace Exit

/-- The edges out of the block, the one for a true condition first. -/
def edges : Exit → List (EdgeKind × BlockId)
  | jump next => [(.jump, next)]
  | branch _ onTrue onFalse => [(.onTrue, onTrue), (.onFalse, onFalse)]
  | ret _ | unset => []

/-- The blocks that may come next. -/
def successors (exit : Exit) : List BlockId :=
  exit.edges.map Prod.snd

/-- The exit with every edge to `old` turned to `new`. -/
def retarget (old new : BlockId) : Exit → Exit
  | jump next => jump (if next = old then new else next)
  | branch condition onTrue onFalse =>
    branch condition (if onTrue = old then new else onTrue)
      (if onFalse = old then new else onFalse)
  | ret value => ret value
  | unset => unset

/-- The exit with a branch that is always taken made a jump. -/
def settle : Exit → Exit
  | branch condition onTrue onFalse =>
    if condition.isAlwaysTrue then jump onTrue else branch condition onTrue onFalse
  | exit => exit

/-- Is the exit undecided? -/
def isUnset : Exit → Bool
  | unset => true
  | _ => false

/-- The expression evaluated on the way out: a condition or a returned value. -/
def expression? : Exit → Option Node
  | branch (.test node) _ _ => some node
  | ret (some value) => some value
  | _ => none

end Exit

/-- Statements in a row with one exit. -/
structure Block where
  /-- The block's index in its graph. -/
  id : BlockId
  /-- The block's name, such as `while5`. -/
  label : String
  /-- Simple statements in the order in which they run. -/
  statements : List Node
  exit : Exit
  /-- The reachable blocks with an edge to this one, in ascending order. -/
  parents : List BlockId
deriving Inhabited

namespace Block

/-- Everything the block holds: its statements, then the expression of its exit. -/
def held (block : Block) : List Node :=
  block.statements ++ block.exit.expression?.toList

/-- Does something that the block holds cover the site? -/
def owns (site : Site) (block : Block) : Bool :=
  block.held.any fun node => node.site.covers site

end Block

end DefUse
