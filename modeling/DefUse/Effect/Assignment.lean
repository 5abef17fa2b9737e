/-
# `Effect.Assignment` — writes to one variable

Four constructs write to a variable: a declarator with an initial value, an
assignment, a compound assignment and an update.  `Assignment.ofNode?`
recognises them.  A write to anything but a plain variable (a member, an
element, a pattern) is no assignment in this sense.
-/
import DefUse.Tree.Node

namespace DefUse

open DefUse.Tree

/-- The construct that writes. -/
inductive WriteKind where
  /-- `let x = e`, and the same with `const` or `var`. -/
  | declaration
  /-- `x = e`. -/
  | simple
  /-- `x += e` and the like. -/
  | compound
  /-- `x++`, `--x` and the like. -/
  | update
deriving DecidableEq, Inhabited

/-- The word for a kind of write. -/
def WriteKind.name : WriteKind → String
  | declaration => "declaration"
  | simple => "simple"
  | compound => "compound"
  | update => "update"

/-- A write to one variable. -/
structure Assignment where
  /-- The writing construct. -/
  site : Site
  kind : WriteKind
  /-- The variable occurrence that is written. -/
  target : Site
deriving DecidableEq, Inhabited

namespace Assignment

/-- The kind of write a node makes and the node it writes to. -/
def target? (node : Node) : Option (WriteKind × Node) :=
  match node.kind with
  | .variableDeclarator =>
    match node.field? .value, node.field? .name with
    | some _, some name => some (.declaration, name)
    | _, _ => none
  | .assignmentExpression =>
    (node.field? .left).map fun left => (.simple, left.unparenthesized)
  | .augmentedAssignment =>
    (node.field? .left).map fun left => (.compound, left.unparenthesized)
  | .updateExpression =>
    (node.field? .argument).map fun argument => (.update, argument.unparenthesized)
  | _ => none

/-- The assignment a node makes, if it writes to exactly one variable. -/
def ofNode? (node : Node) : Option Assignment :=
  match target? node with
  | some (kind, target) =>
    if target.kind = .identifier then some ⟨node.site, kind, target.site⟩ else none
  | none => none

end Assignment

end DefUse
