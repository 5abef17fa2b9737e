/-
# `Statement` — the structured programs that are analysed

A small statement language: simple statements, sequences, `if`, three loops,
the jumps out of a loop's body, and `return`.  `Statement.ofNode` reads it off a
syntax tree.  All that can be wrong with a statement is found here, and the
first fault in document order is reported; what comes out can be given a graph
without further checks.
-/
import DefUse.Clause
import DefUse.Effect.Reads
import DefUse.Program

namespace DefUse

open DefUse.Tree

/-- A structured statement.  Simple statements, conditions and values are kept
as the syntax they are. -/
inductive Statement where
  /-- Nothing. -/
  | skip
  /-- An expression or a declaration. -/
  | simple (node : Node)
  /-- One after the other. -/
  | seq (first second : Statement)
  | ifElse (condition : Node) (thenArm elseArm : Statement)
  /-- The condition is tested before each round. -/
  | whileLoop (condition : Node) (body : Statement)
  /-- The condition is tested after each round. -/
  | doLoop (condition : Node) (body : Statement)
  /-- An absent condition holds always. -/
  | forLoop (initializer condition increment : Option Node) (body : Statement)
  /-- Leaves the body of the innermost loop. -/
  | jump (jump : LoopJump)
  /-- Ends the run. -/
  | ret (value : Option Node)
deriving Inhabited

namespace Statement

/-- The name of a construct in the refusal of it. -/
def constructName : Kind → String
  | .forInStatement => "for-in/for-of loop"
  | .switchStatement => "switch statement"
  | .tryStatement => "try statement"
  | .throwStatement => "throw statement"
  | .labeledStatement => "labeled statement"
  | .functionDeclaration | .generatorDeclaration => "nested function declaration"
  | kind => kind.name

/-- A `break` or `continue`: it has no label and stands inside a loop. -/
def ofJump (inLoop : Bool) (jump : LoopJump) (node : Node) : Except AnalysisError Statement :=
  if (node.field? .label).isSome then
    .error (unsupportedAt ("labeled " ++ jump.keyword) node)
  else if inLoop then .ok (.jump jump)
  else .error (.noEnclosingLoop jump node.line)

/-- The condition that `if`, `while` and `do` cannot be without. -/
def conditionOf (node : Node) : Except AnalysisError Node :=
  match node.field? .condition with
  | some condition => .ok condition
  | none => .error (unsupportedAt "statement without condition" node)

mutual

/-- Reads a statement off the syntax tree.  `inLoop` says whether a loop encloses
it. -/
def ofNode (inLoop : Bool) : Node → Except AnalysisError Statement
  | .mk site children =>
    match site.kind with
    | .expressionStatement | .lexicalDeclaration | .variableDeclaration =>
      .ok (.simple (.mk site children))
    | .statementBlock => ofNamed inLoop children
    | .emptyStatement | .hashBangLine | .comment _ => .ok .skip
    | .ifStatement => do
      let condition ← conditionOf (.mk site children)
      let thenArm ← ofField inLoop .consequence children
      let elseArm ← ofElse inLoop children
      return .ifElse condition thenArm elseArm
    | .whileStatement => do
      let condition ← conditionOf (.mk site children)
      let body ← ofField true .body children
      return .whileLoop condition body
    | .doStatement => do
      let condition ← conditionOf (.mk site children)
      let body ← ofField true .body children
      return .doLoop condition body
    | .forStatement => do
      let clauses := ForClauses.ofNode (.mk site children)
      let body ← ofField true .body children
      return .forLoop clauses.initializer clauses.condition clauses.increment body
    | .breakStatement => ofJump inLoop .leave (.mk site children)
    | .continueStatement => ofJump inLoop .again (.mk site children)
    | .returnStatement => .ok (.ret (Node.mk site children).firstNamed?)
    | kind => .error (.unsupported (constructName kind) site.line)

/-- Reads the named ones among several nodes as one sequence. -/
def ofNamed (inLoop : Bool) : List Node → Except AnalysisError Statement
  | [] => .ok .skip
  | child :: rest =>
    if child.isNamed then do
      let first ← ofNode inLoop child
      let others ← ofNamed inLoop rest
      return .seq first others
    else ofNamed inLoop rest

/-- Reads the first node in role `field`; without one there is nothing to do. -/
def ofField (inLoop : Bool) (field : Field) : List Node → Except AnalysisError Statement
  | [] => .ok .skip
  | child :: rest =>
    if child.carries field then ofNode inLoop child else ofField inLoop field rest

/-- Reads the statement of the `else`. -/
def ofElse (inLoop : Bool) : List Node → Except AnalysisError Statement
  | [] => .ok .skip
  | child :: rest =>
    if child.carries .alternative then
      if child.kind = .elseClause then ofClause inLoop child else ofNode inLoop child
    else ofElse inLoop rest

/-- Reads the statement that an `else` clause holds. -/
def ofClause (inLoop : Bool) : Node → Except AnalysisError Statement
  | .mk _ children => ofFirst inLoop children

/-- Reads the first named node that is no comment. -/
def ofFirst (inLoop : Bool) : List Node → Except AnalysisError Statement
  | [] => .ok .skip
  | child :: rest =>
    if child.isContent then ofNode inLoop child else ofFirst inLoop rest

end

end Statement

/-- The statements of a program's entry. -/
def Program.statement (program : Program) : Except AnalysisError Statement :=
  Statement.ofNamed false program.entry.body.children

end DefUse
