/-
# `Graph.Build` — the graph of a structured statement

The graph grows statement by statement.  At any point one block is *current*:
statements go to its end, and its exit says where control goes once the
statements to come are done.  A construct adds a block for what comes after it,
which inherits the exit of the current block, wires its own blocks up to lead
there, and makes that block the current one.

After a jump or a `return` the current block is one that nothing leads to.
-/
import DefUse.Graph.Basic
import DefUse.Statement

namespace DefUse

open DefUse.Tree

/-- Where the jumps out of a loop's body lead. -/
structure LoopTargets where
  /-- The block that starts the next round. -/
  again : BlockId
  /-- The block after the loop. -/
  leave : BlockId
deriving Inhabited

/-- The target of a jump. -/
def LoopTargets.of (targets : LoopTargets) : LoopJump → BlockId
  | .leave => targets.leave
  | .again => targets.again

/-- A graph under construction. -/
structure Draft where
  graph : Graph
  /-- The block that takes the next statement. -/
  current : BlockId
deriving Inhabited

namespace Draft

/-- One block without statements, at which the run ends. -/
def start : Draft :=
  ⟨Graph.add "start" (.ret none) ⟨#[], 0, 0⟩, 0⟩

/-- The exit that the code after a construct inherits. -/
def pending (draft : Draft) : Exit :=
  draft.graph.exitOf draft.current

/-- The index of the next new block. -/
def fresh (draft : Draft) : BlockId :=
  draft.graph.blocks.size

/-- Ends the current block with `exit`; what follows goes to a block that nothing
leads to. -/
def cut (exit : BlockId → Exit) (draft : Draft) : Draft :=
  let dead := draft.fresh
  ⟨(draft.graph.add "dead" draft.pending).setExit draft.current (exit dead), dead⟩

/-- The blocks of an `if`: after it, its two arms. -/
def openIf (condition : Node) (draft : Draft) : Graph :=
  let next := draft.fresh
  ((draft.graph.add "next" draft.pending).add "then" (.jump next)).add "else" (.jump next)
    |>.setExit draft.current (.branch (.test condition) (next + 1) (next + 2))

/-- The blocks of a `while`: after it, its test, its body. -/
def openWhile (condition : Node) (draft : Draft) : Graph :=
  let next := draft.fresh
  ((draft.graph.add "next" draft.pending).add "while"
      (.branch (.test condition) (next + 2) next)).add "loop" (.jump (next + 1))
    |>.setExit draft.current (.jump (next + 1))

/-- The blocks of a `do`: after it, its test, its body. -/
def openDo (condition : Node) (draft : Draft) : Graph :=
  let next := draft.fresh
  ((draft.graph.add "next" draft.pending).add "dowhile"
      (.branch (.test condition) (next + 2) next)).add "do" (.jump (next + 1))
    |>.setExit draft.current (.jump (next + 2))

/-- What a `for` tests. -/
def forCondition : Option Node → Condition
  | some node => .test node
  | none => .always

/-- The blocks of a `for`: after it, its test, its initializer, its increment, its
body. -/
def openFor (initializer condition increment : Option Node) (draft : Draft) : Graph :=
  let next := draft.fresh
  let graph := (draft.graph.add "next" draft.pending).add "for"
    (.branch (forCondition condition) (next + 4) next)
  let graph := ((graph.add "init" (.jump (next + 1))).add "incr" (.jump (next + 1))).add "body"
    (.jump (next + 3))
  ((graph.append (next + 2) initializer.toList).append (next + 3) increment.toList).setExit
    draft.current (.jump (next + 2))

/-- Adds a statement to the graph.  `loop` are the targets of the innermost loop
around it; a jump without such a loop, which no source has, changes nothing. -/
def add : Statement → Option LoopTargets → Draft → Draft
  | .skip, _, draft => draft
  | .simple node, _, draft => ⟨draft.graph.append draft.current [node], draft.current⟩
  | .seq first second, loop, draft => add second loop (add first loop draft)
  | .ifElse condition thenArm elseArm, loop, draft =>
    let next := draft.fresh
    let afterThen := add thenArm loop ⟨draft.openIf condition, next + 1⟩
    let afterElse := add elseArm loop ⟨afterThen.graph, next + 2⟩
    ⟨afterElse.graph, next⟩
  | .whileLoop condition body, _, draft =>
    let next := draft.fresh
    ⟨(add body (some ⟨next + 1, next⟩) ⟨draft.openWhile condition, next + 2⟩).graph, next⟩
  | .doLoop condition body, _, draft =>
    let next := draft.fresh
    ⟨(add body (some ⟨next + 1, next⟩) ⟨draft.openDo condition, next + 2⟩).graph, next⟩
  | .forLoop initializer condition increment body, _, draft =>
    let next := draft.fresh
    ⟨(add body (some ⟨next + 3, next⟩)
      ⟨draft.openFor initializer condition increment, next + 4⟩).graph, next⟩
  | .jump jump, some targets, draft => draft.cut fun dead => .branch .always (targets.of jump) dead
  | .jump _, none, draft => draft
  | .ret value, _, draft => draft.cut fun _ => .ret value

end Draft

/-- The graph of a structured statement, before its parents are set. -/
def Statement.graph (statement : Statement) : Graph :=
  (Draft.add statement none Draft.start).graph

/-- The control flow graph of a program's entry. -/
def Program.graph (program : Program) : Except AnalysisError Graph := do
  let statement ← program.statement
  statement.graph.refresh

end DefUse
