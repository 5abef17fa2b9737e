/-
# `Effect.Reads` — the variables an expression reads

Of a member access only the object is looked at, since the property is a name
and no variable.  An expression that writes in passing, or that contains a
function or a class with a body of its own, is refused.
-/
import DefUse.Error
import DefUse.Tree.Node

namespace DefUse

open DefUse.Tree

/-- The refusal of a construct at the line of its node. -/
def unsupportedAt (construct : String) (node : Node) : AnalysisError :=
  .unsupported construct node.line

mutual

/-- The variables read by an expression, in document order. -/
def reads : Node → Except AnalysisError (List Site)
  | .mk site children =>
    match site.kind with
    | .identifier | .shorthandIdentifier => .ok [site]
    | .assignmentExpression | .augmentedAssignment | .updateExpression =>
      .error (.unsupported "assignment inside an expression" site.line)
    | .functionExpression | .functionKeyword | .arrowFunction | .generatorFunction
    | .classExpression => .error (.unsupported "function or class expression" site.line)
    | .memberExpression => readsField .object children
    | _ => readsNamed children

/-- The variables read by the first node in role `field`. -/
def readsField (field : Field) : List Node → Except AnalysisError (List Site)
  | [] => .ok []
  | child :: rest => if child.carries field then reads child else readsField field rest

/-- The variables read by the named ones among several nodes, from left to right. -/
def readsNamed : List Node → Except AnalysisError (List Site)
  | [] => .ok []
  | child :: rest =>
    if child.isNamed then
      match reads child with
      | .error e => .error e
      | .ok first =>
        match readsNamed rest with
        | .error e => .error e
        | .ok others => .ok (first ++ others)
    else readsNamed rest

end

/-- The variables read by an expression that may be absent. -/
def readsOf? (node : Option Node) : Except AnalysisError (List Site) :=
  match node with
  | none => .ok []
  | some node => reads node

theorem readsField_eq (field : Field) (children : List Node) :
    readsField field children = readsOf? (children.find? (Node.carries field)) := by
  induction children with
  | nil => rfl
  | cons child rest ih =>
    by_cases h : child.carries field <;> simp [readsField, readsOf?, h, ih]

end DefUse
