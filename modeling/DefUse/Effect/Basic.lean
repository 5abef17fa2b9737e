/-
# `Effect.Basic` — what a simple statement does, step by step

A simple statement is a sequence of *effects*: each reads some variables and
then writes at most one.  A declaration has one effect per declarator, a comma
expression one per part.  The value on the right is read before the target on
the left; a compound assignment reads its target too.
-/
import DefUse.Effect.Assignment
import DefUse.Effect.Reads

namespace DefUse

open DefUse.Tree

/-- One step of a statement: the variables read, then at most one write. -/
structure Effect where
  reads : List Site
  write : Option Assignment
deriving DecidableEq, Inhabited

namespace Effect

/-- The effect of a declarator. -/
def ofDeclarator (declarator : Node) : Except AnalysisError Effect :=
  if (declarator.field? .name).any (fun name => name.kind ≠ .identifier) then
    .error (unsupportedAt "destructuring declaration" declarator)
  else do
    let reads ← readsOf? (declarator.field? .value)
    return ⟨reads, Assignment.ofNode? declarator⟩

/-- The variables read on the left of a plain assignment, besides the target. -/
def readsOfTarget (assignment : Node) : Except AnalysisError (List Site) :=
  match (assignment.field? .left).map Node.unparenthesized with
  | none => .ok []
  | some left =>
    if left.kind = .identifier then .ok []
    else if left.kind.isPattern then
      .error (unsupportedAt "destructuring assignment" assignment)
    else DefUse.reads left

/-- The effect of a plain assignment. -/
def ofAssignment (node : Node) : Except AnalysisError Effect := do
  let right ← readsOf? (node.field? .right)
  let left ← readsOfTarget node
  return ⟨right ++ left, Assignment.ofNode? node⟩

/-- The effect of a compound assignment. -/
def ofCompound (node : Node) : Except AnalysisError Effect := do
  let right ← readsOf? (node.field? .right)
  let left ← readsOf? (node.field? .left)
  return ⟨right ++ left, Assignment.ofNode? node⟩

/-- The effect of an update. -/
def ofUpdate (node : Node) : Except AnalysisError Effect := do
  let reads ← readsOf? (node.field? .argument)
  return ⟨reads, Assignment.ofNode? node⟩

/-- The effect of an expression that does nothing but read. -/
def ofReads (node : Node) : Except AnalysisError Effect := do
  let reads ← DefUse.reads node
  return ⟨reads, none⟩

end Effect

mutual

/-- The effects of an expression in statement position. -/
def expressionEffects : Node → Except AnalysisError (List Effect)
  | .mk site children =>
    match site.kind with
    | .parenthesizedExpression =>
      (expressionEffectsFirst children).getD
        ((Effect.ofReads (.mk site children)).map List.singleton)
    | .sequenceExpression => expressionEffectsNamed children
    | .assignmentExpression => (Effect.ofAssignment (.mk site children)).map List.singleton
    | .augmentedAssignment => (Effect.ofCompound (.mk site children)).map List.singleton
    | .updateExpression => (Effect.ofUpdate (.mk site children)).map List.singleton
    | _ => (Effect.ofReads (.mk site children)).map List.singleton

/-- The effects of the expression inside parentheses, if there is one. -/
def expressionEffectsFirst : List Node → Option (Except AnalysisError (List Effect))
  | [] => none
  | child :: rest =>
    if child.isContent then some (expressionEffects child) else expressionEffectsFirst rest

/-- The effects of the parts of a comma expression, from left to right. -/
def expressionEffectsNamed : List Node → Except AnalysisError (List Effect)
  | [] => .ok []
  | child :: rest =>
    if child.isNamed then
      match expressionEffects child with
      | .error e => .error e
      | .ok first =>
        match expressionEffectsNamed rest with
        | .error e => .error e
        | .ok others => .ok (first ++ others)
    else expressionEffectsNamed rest

end

/-- The declarators of a declaration. -/
def declarators (declaration : Node) : List Node :=
  declaration.namedChildren.filter fun node => node.kind = .variableDeclarator

/-- Is the statement a declaration of variables? -/
def isDeclaration (node : Node) : Bool :=
  node.kind = .lexicalDeclaration || node.kind = .variableDeclaration

/-- The effects of a simple statement, or of a bare expression in the head of a
`for`. -/
def effects (statement : Node) : Except AnalysisError (List Effect) :=
  match statement.kind with
  | .lexicalDeclaration | .variableDeclaration =>
    (declarators statement).mapM Effect.ofDeclarator
  | .expressionStatement =>
    match statement.firstNamed? with
    | none => .ok []
    | some expression => expressionEffects expression
  | .emptyStatement => .ok []
  | _ => expressionEffects statement

end DefUse
