/-
# `Graph.Listing` — a graph as text

A block is written as its label, its statements and its exit, one on a line;
the reachable blocks follow each other in breadth-first order.
-/
import DefUse.Graph.Basic
import DefUse.Program

namespace DefUse

open DefUse.Tree

namespace Program

/-- The text of a condition, without its parentheses. -/
def conditionText (program : Program) : Condition → String
  | .always => "true"
  | .test node => program.text node.unparenthesized.site

/-- The text of a block's exit. -/
def exitText (program : Program) (graph : Graph) : Exit → String
  | .ret none => "halt"
  | .ret (some value) => "return " ++ program.text value.site
  | .jump next => "jump to " ++ graph.labelOf next
  | .branch condition onTrue onFalse =>
    "jump if (" ++ program.conditionText condition ++ ") to " ++ graph.labelOf onTrue ++
      " else " ++ graph.labelOf onFalse
  | .unset => "unset"

/-- The lines of a block. -/
def blockText (program : Program) (graph : Graph) (block : Block) : String :=
  let statements := block.statements.map fun node => "  " ++ program.text node.site ++ "\n"
  block.label ++ ":\n" ++ String.join statements ++
    "  " ++ program.exitText graph block.exit ++ "\n"

/-- The whole graph as text. -/
def graphText (program : Program) (graph : Graph) : String :=
  String.join (graph.reachable.map (program.blockText graph))

end Program

end DefUse
