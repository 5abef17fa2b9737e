/-
# `Diagram.Basic` — graphs to be drawn

A diagram is a list of nodes and a list of edges.  It is drawn from a control
flow graph: a node per reachable block, an edge per edge of the graph, and, if
the dependencies are given, an edge from each block that reads a variable to
each block whose assignment it may read.
-/
import DefUse.Dependency.Basic
import DefUse.Graph.Listing

namespace DefUse

open DefUse.Tree

/-- A block in a diagram. -/
structure DiagramNode where
  id : Nat
  label : String
  /-- The texts of the statements, each starting a new line. -/
  body : String
  /-- How control leaves the block, in a word. -/
  exit : String
deriving DecidableEq, Inhabited

/-- What an edge of a diagram stands for. -/
inductive EdgeLabel where
  | control (kind : EdgeKind)
  /-- From the reading block to the assigning one. -/
  | depends
deriving DecidableEq, Inhabited

/-- The word for an edge. -/
def EdgeLabel.name : EdgeLabel → String
  | control kind => kind.name
  | depends => "depends"

/-- The edge with a given word. -/
def EdgeLabel.ofName? : String → Option EdgeLabel
  | "jump" => some (.control .jump)
  | "then" => some (.control .onTrue)
  | "else" => some (.control .onFalse)
  | "depends" => some .depends
  | _ => none

/-- An edge in a diagram. -/
structure DiagramEdge where
  id : Nat
  /-- The node it comes from. -/
  source : Nat
  /-- The node it leads to. -/
  target : Nat
  label : EdgeLabel
deriving DecidableEq, Inhabited

/-- A graph to be drawn. -/
structure Diagram where
  nodes : List DiagramNode
  edges : List DiagramEdge
deriving DecidableEq, Inhabited

/-! ## Dependencies between blocks -/

/-- Pairs in lexicographic order. -/
def pairBefore (a b : BlockId × BlockId) : Bool :=
  a.1 < b.1 || (a.1 = b.1 && a.2 < b.2)

/-- The blocks that one read and its assignments lie in.  What lies in no reachable
block is left out. -/
def Graph.pairsOf (graph : Graph) (entry : Site × List Assignment) :
    List (BlockId × BlockId) :=
  match graph.blockContaining? entry.1 with
  | none => []
  | some source =>
    (entry.2.filterMap fun assignment => graph.blockContaining? assignment.site).map
      fun target => (source, target)

/-- The pairs of a reading block and an assigning block, in ascending order. -/
def Graph.dependencyPairs (graph : Graph) (dependencies : Dependencies) :
    List (BlockId × BlockId) :=
  Sorted.ofList pairBefore (dependencies.reads.flatMap graph.pairsOf)

/-- Labels in ascending order, each once. -/
def sortLabels (labels : List String) : List String :=
  Sorted.ofList (fun a b => a < b) labels

/-- For each label of a reachable block the labels of the other blocks whose
assignments it may read, all in ascending order. -/
def Graph.blockDependencies (graph : Graph) (dependencies : Dependencies) :
    List (String × List String) :=
  let pairs := (graph.dependencyPairs dependencies).filter fun pair => pair.1 ≠ pair.2
  (sortLabels (graph.order.map graph.labelOf)).map fun label =>
    let read := pairs.filter fun pair => graph.labelOf pair.1 = label
    (label, sortLabels (read.map fun pair => graph.labelOf pair.2))

/-! ## Drawing a graph -/

namespace Diagram

/-- How control leaves a block, without saying where it goes. -/
def exitWord (program : Program) : Exit → String
  | .ret none => "halt"
  | .ret (some value) => "return " ++ program.text value.site
  | .branch condition _ _ => "if (" ++ program.conditionText condition ++ ")"
  | .jump _ => "jump"
  | .unset => "unset"

/-- The node of a block. -/
def nodeOf (program : Program) (block : Block) (id : Nat) : DiagramNode where
  id := id
  label := block.label
  body := "\n".intercalate (block.statements.map fun node => program.text node.site)
  exit := exitWord program block.exit

/-- The edges out of a block, as source, target and label. -/
def controlEdges (graph : Graph) (id : BlockId) : List (BlockId × BlockId × EdgeLabel) :=
  (graph.exitOf id).edges.map fun edge => (id, edge.2, .control edge.1)

/-- The edges for dependencies. -/
def dependsEdges (graph : Graph) (dependencies : Option Dependencies) :
    List (BlockId × BlockId × EdgeLabel) :=
  match dependencies with
  | none => []
  | some dependencies =>
    (graph.dependencyPairs dependencies).map fun pair => (pair.1, pair.2, .depends)

/-- The diagram of a graph.  Nodes are numbered from one in breadth-first order, and
edges after them. -/
def ofGraph (program : Program) (graph : Graph) (dependencies : Option Dependencies) :
    Diagram :=
  let order := graph.order
  let number := fun id => order.idxOf id + 1
  let edges := order.flatMap (controlEdges graph) ++ dependsEdges graph dependencies
  { nodes := (graph.reachable.zipIdx 1).map fun entry => nodeOf program entry.1 entry.2
    edges := (edges.zipIdx (order.length + 1)).map fun entry =>
      ⟨entry.2, number entry.1.1, number entry.1.2.1, entry.1.2.2⟩ }

end Diagram

end DefUse
