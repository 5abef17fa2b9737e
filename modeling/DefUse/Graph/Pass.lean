/-
# `Graph.Pass` — rewriting a graph

Four passes change the shape of a graph and keep what it does:

* *empty jumps*: a block without statements that only jumps on is taken out, and
  the edges to it lead on at once;
* *true branches*: a branch that is always taken becomes a jump;
* *merging*: a block whose only parent jumps to it is joined with that parent;
* *splitting*: every block gets at most one statement.

The first and the third repeat one step as long as there is a place for it.
Each step makes one reachable block unreachable, so that the number of blocks
bounds the number of steps.
-/
import DefUse.Graph.Basic

namespace DefUse

open DefUse.Tree

/-- A rewriting of the graph. -/
inductive Pass where
  | emptyJumps
  | trueBranches
  | mergeChains
  | split
deriving DecidableEq, Inhabited

/-- Which passes are run. -/
structure Simplification where
  emptyJumps : Bool := true
  trueBranches : Bool := true
  mergeChains : Bool := false
  split : Bool := false
deriving DecidableEq, Inhabited

namespace Simplification

/-- No pass at all. -/
def none : Simplification :=
  ⟨false, false, false, false⟩

/-- The chosen passes in the order in which they run. -/
def passes (choice : Simplification) : List Pass :=
  (if choice.emptyJumps then [.emptyJumps] else []) ++
  (if choice.trueBranches then [.trueBranches] else []) ++
  (if choice.mergeChains then [.mergeChains] else []) ++
  (if choice.split then [.split] else [])

end Simplification

namespace Graph

/-! ## Empty jumps -/

/-- The target of a block that has no statements and only jumps on. -/
def emptyJump? (graph : Graph) (id : BlockId) : Option (BlockId × BlockId) :=
  match graph.block? id with
  | some ⟨_, _, [], .jump next, _⟩ => if next = id then none else some (id, next)
  | _ => none

/-- Leads the parents of a block past it to `next`. -/
def bypass (id next : BlockId) (graph : Graph) : Graph :=
  let parents := match graph.block? id with
    | some block => block.parents
    | none => []
  setParents
    { graph with
      blocks := graph.blocks.mapIdx fun parent block =>
        if parents.contains parent then { block with exit := block.exit.retarget id next }
        else block
      entry := if graph.entry = id then next else graph.entry }

/-- Takes out empty blocks, at most `fuel` of them. -/
def bypassAll : Nat → Graph → Graph
  | 0, graph => graph
  | fuel + 1, graph =>
    match graph.order.findSome? graph.emptyJump? with
    | some (id, next) => bypassAll fuel (graph.bypass id next)
    | none => graph

/-! ## True branches -/

/-- Makes every branch that is always taken a jump. -/
def settleAll (graph : Graph) : Graph :=
  let order := graph.order
  { graph with
    blocks := graph.blocks.mapIdx fun id block =>
      if order.contains id then { block with exit := block.exit.settle } else block }

/-! ## Merging -/

/-- The target of a block's jump, if the block is its only parent. -/
def mergeable? (graph : Graph) (id : BlockId) : Option (BlockId × BlockId) :=
  match graph.exitOf id with
  | .jump next =>
    let only := (graph.block? next).any fun block => block.parents = [id]
    if next ≠ id && next ≠ graph.entry && only then some (id, next) else none
  | _ => none

/-- Moves the statements and the exit of `tail` to the end of `head`. -/
def merge (head tail : BlockId) (graph : Graph) : Graph :=
  match graph.block? tail with
  | none => graph
  | some absorbed =>
    let emptied := graph.modify tail fun block => { block with statements := [] }
    ((emptied.append head absorbed.statements).setExit head absorbed.exit).setParents

/-- Merges blocks with their only parents, at most `fuel` times. -/
def mergeAll : Nat → Graph → Graph
  | 0, graph => graph
  | fuel + 1, graph =>
    match graph.order.findSome? graph.mergeable? with
    | some (head, tail) => mergeAll fuel (graph.merge head tail)
    | none => graph

/-! ## Splitting -/

/-- A chain of blocks with one statement each, at consecutive indices from
`first`.  The last one takes over the exit. -/
def chain (label : String) (exit : Exit) : (first count : Nat) → List Node → List Block
  | _, _, [] => []
  | first, count, [statement] =>
    [⟨first, label ++ "_" ++ toString count, [statement], exit, []⟩]
  | first, count, statement :: rest =>
    ⟨first, label ++ "_" ++ toString count, [statement], .jump (first + 1), []⟩ ::
      chain label exit (first + 1) (count + 1) rest

/-- Leaves a block its first statement and puts the others into new blocks. -/
def splitBlock (graph : Graph) (id : BlockId) : Graph :=
  match graph.block? id with
  | some ⟨_, label, first :: second :: rest, exit, _⟩ =>
    let fresh := graph.blocks.size
    let kept := graph.modify id fun block =>
      { block with statements := [first], exit := .jump fresh }
    { kept with
      blocks := kept.blocks ++ (chain label exit fresh 1 (second :: rest)).toArray }
  | _ => graph

/-- Splits every reachable block. -/
def splitAll (graph : Graph) : Graph :=
  graph.order.foldl splitBlock graph

/-! ## Passes -/

/-- Runs a pass. -/
def apply (graph : Graph) : Pass → Except AnalysisError Graph
  | .emptyJumps => (bypassAll graph.blocks.size graph).validate
  | .trueBranches => graph.settleAll.refresh
  | .mergeChains => (mergeAll graph.blocks.size graph).validate
  | .split => graph.splitAll.refresh

/-- Runs the chosen passes one after the other. -/
def simplify (choice : Simplification) (graph : Graph) : Except AnalysisError Graph :=
  choice.passes.foldlM apply graph

end Graph

end DefUse
