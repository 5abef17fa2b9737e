/-
# `Dependency.Lexical` — the nearest assignment above

A simpler analysis that does not follow the flow of control: it walks through the
source once, and a read depends on the assignment that the walk met last for the
variable in scope.  Every read gets at most one assignment.  A block and a `for`
open a frame each; jumps change nothing.
-/
import DefUse.Clause
import DefUse.Dependency.Basic
import DefUse.Program
import DefUse.Scope

namespace DefUse

open DefUse.Tree

/-- The state of the walk. -/
structure LexicalWalk where
  /-- The last assignment of each variable in scope; none for a variable that is
  declared without a value. -/
  scope : Scope (Option Assignment)
  reads : ReadMap
  events : List Event
deriving Inhabited

namespace LexicalWalk

/-- Nothing declared, nothing read. -/
def start : LexicalWalk :=
  ⟨Scope.empty, [], []⟩

def push (walk : LexicalWalk) : LexicalWalk :=
  { walk with scope := walk.scope.push }

def pop (walk : LexicalWalk) : LexicalWalk :=
  { walk with scope := walk.scope.pop }

/-- A read depends on the last assignment of its variable. -/
def read (program : Program) (walk : LexicalWalk) (read : Site) : LexicalWalk :=
  let reaching := ((walk.scope.lookup (program.text read)).bind id).toList
  { walk with reads := walk.reads.record read reaching }

/-- A declaration binds its variable; any other write changes the variable in
scope, and is passed over if there is none. -/
def write (program : Program) (walk : LexicalWalk) (assignment : Assignment) : LexicalWalk :=
  let name := program.text assignment.target
  if assignment.kind = .declaration then
    { walk with scope := walk.scope.bind name (some assignment) }
  else
    match walk.scope.assign? name (some assignment) with
    | some scope => { walk with scope := scope }
    | none =>
      { walk with events := walk.events ++ [.undeclaredName name assignment.target.line] }

/-- The reads of an effect, then its write. -/
def step (program : Program) (walk : LexicalWalk) (effect : Effect) : LexicalWalk :=
  effect.write.toList.foldl (write program) (effect.reads.foldl (read program) walk)

/-- Goes through a simple statement. -/
def simple (program : Program) (node : Node) (walk : LexicalWalk) :
    Except AnalysisError LexicalWalk := do
  let effects ← effects node
  return effects.foldl (step program) walk

/-- The variables that a declaration leaves without a value. -/
def uninitialized (declaration : Node) : List Node :=
  ((declarators declaration).filter fun node => (node.field? .value).isNone).filterMap
    (Node.field? .name)

/-- Binds the variables that a declaration leaves without a value. -/
def declareUninitialized (program : Program) (declaration : Node) (walk : LexicalWalk) :
    LexicalWalk :=
  (uninitialized declaration).foldl
    (fun walk name => { walk with scope := walk.scope.bind (program.text name.site) none }) walk

/-- Goes through a declaration: first all variables without a value are bound, then
the declarators are taken in order. -/
def declaration (program : Program) (node : Node) (walk : LexicalWalk) :
    Except AnalysisError LexicalWalk :=
  simple program node (walk.declareUninitialized program node)

/-- Goes through an expression that is only read, if it is there. -/
def expression (program : Program) (node : Option Node) (walk : LexicalWalk) :
    Except AnalysisError LexicalWalk := do
  let reads ← readsOf? node
  return reads.foldl (read program) walk

/-- Goes through the initializer of a `for`. -/
def initializer (program : Program) (node : Option Node) (walk : LexicalWalk) :
    Except AnalysisError LexicalWalk :=
  match node with
  | none => .ok walk
  | some node =>
    if isDeclaration node then walk.declaration program node else walk.simple program node

/-- Goes through the increment of a `for`. -/
def increment (program : Program) (node : Option Node) (walk : LexicalWalk) :
    Except AnalysisError LexicalWalk :=
  match node with
  | none => .ok walk
  | some node => walk.simple program node

mutual

/-- Goes through a statement. -/
def statement (program : Program) : Node → LexicalWalk → Except AnalysisError LexicalWalk
  | .mk site children, walk =>
    match site.kind with
    | .statementBlock => do
      let inside ← statementsNamed program children walk.push
      return inside.pop
    | .lexicalDeclaration | .variableDeclaration =>
      walk.declaration program (.mk site children)
    | .expressionStatement => walk.simple program (.mk site children)
    | .ifStatement => do
      let tested ← walk.expression program ((Node.mk site children).field? .condition)
      let afterThen ← statementField program .consequence children tested
      statementElse program children afterThen
    | .whileStatement => do
      let tested ← walk.expression program ((Node.mk site children).field? .condition)
      statementField program .body children tested
    | .doStatement => do
      let done ← statementField program .body children walk
      done.expression program ((Node.mk site children).field? .condition)
    | .forStatement => do
      let clauses := ForClauses.ofNode (.mk site children)
      let ready ← walk.push.initializer program clauses.initializer
      let tested ← ready.expression program clauses.condition
      let done ← statementField program .body children tested
      let next ← done.increment program clauses.increment
      return next.pop
    | .returnStatement => walk.expression program (Node.mk site children).firstNamed?
    | .breakStatement | .continueStatement | .emptyStatement | .hashBangLine | .comment _ =>
      .ok walk
    | kind => .error (.unsupported kind.name site.line)

/-- Goes through the named ones among several nodes. -/
def statementsNamed (program : Program) :
    List Node → LexicalWalk → Except AnalysisError LexicalWalk
  | [], walk => .ok walk
  | child :: rest, walk =>
    if child.isNamed then
      match statement program child walk with
      | .error e => .error e
      | .ok next => statementsNamed program rest next
    else statementsNamed program rest walk

/-- Goes through the first node in role `field`, if there is one. -/
def statementField (program : Program) (field : Field) :
    List Node → LexicalWalk → Except AnalysisError LexicalWalk
  | [], walk => .ok walk
  | child :: rest, walk =>
    if child.carries field then statement program child walk
    else statementField program field rest walk

/-- Goes through the statement of the `else`. -/
def statementElse (program : Program) :
    List Node → LexicalWalk → Except AnalysisError LexicalWalk
  | [], walk => .ok walk
  | child :: rest, walk =>
    if child.carries .alternative then
      if child.kind = .elseClause then statementClause program child walk
      else statement program child walk
    else statementElse program rest walk

/-- Goes through the statement that an `else` clause holds. -/
def statementClause (program : Program) :
    Node → LexicalWalk → Except AnalysisError LexicalWalk
  | .mk _ children, walk => statementFirst program children walk

/-- Goes through the first named node that is no comment. -/
def statementFirst (program : Program) :
    List Node → LexicalWalk → Except AnalysisError LexicalWalk
  | [], walk => .ok walk
  | child :: rest, walk =>
    if child.isContent then statement program child walk
    else statementFirst program rest walk

end

/-- The dependencies found. -/
def dependencies (walk : LexicalWalk) : Dependencies :=
  ⟨walk.reads, false, walk.events⟩

end LexicalWalk

/-- The dependencies of a program by the nearest assignment above. -/
def Program.lexical (program : Program) : Except AnalysisError Dependencies := do
  let walk ← LexicalWalk.start.statementsNamed program program.entry.body.children
  return walk.dependencies

end DefUse
