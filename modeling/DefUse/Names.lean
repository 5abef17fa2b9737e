/-
# `Names` — one name per variable

Variables of one spelling are told apart by numbering their declarations: the
first declaration of `n` is named `n`, the later ones `n2`, `n3` and so on, in
the order in which the walk meets them.  Every occurrence of a variable gets the
name of the declaration it belongs to; an occurrence without a visible
declaration gets none.

The walk goes through the entry in document order, with two exceptions: a
declarator's value comes before its own name, and of a declaration only its
declarators are looked at.  A block and a `for` open a frame each.
-/
import DefUse.Effect.Basic
import DefUse.Program
import DefUse.Scope

namespace DefUse

open DefUse.Tree

/-- The names of variable occurrences. -/
structure Names where
  entries : List (Site × String)
deriving Inhabited

namespace Names

/-- No occurrence has a name. -/
def empty : Names :=
  ⟨[]⟩

/-- The name of the variable at an occurrence. -/
def get? (names : Names) (site : Site) : Option String :=
  names.entries.lookup site

/-- Names an occurrence, instead of any name it has. -/
def insert (site : Site) (name : String) (names : Names) : Names :=
  ⟨(site, name) :: names.entries.filter fun entry => entry.1 ≠ site⟩

theorem lookup_filter_ne {α β : Type} [DecidableEq α] {key other : α} (h : other ≠ key) :
    ∀ entries : List (α × β),
      (entries.filter fun entry => entry.1 ≠ key).lookup other = entries.lookup other
  | [] => rfl
  | (first, value) :: rest => by
    have ih := lookup_filter_ne h rest
    by_cases he : first = key
    · have hne : (other == first) = false := by simpa [he] using h
      rw [List.filter_cons_of_neg (by simpa using he), List.lookup_cons, hne]
      exact ih
    · rw [List.filter_cons_of_pos (by simpa using he), List.lookup_cons, List.lookup_cons, ih]

@[simp] theorem get?_insert_self (site : Site) (name : String) (names : Names) :
    (names.insert site name).get? site = some name := by
  simp [insert, get?]

theorem get?_insert_of_ne {site other : Site} (h : other ≠ site) (name : String)
    (names : Names) : (names.insert site name).get? other = names.get? other := by
  have hne : (other == site) = false := by simpa using h
  rw [insert, get?, List.lookup_cons, hne]
  exact lookup_filter_ne h names.entries

/-- How many occurrences have a name. -/
def size (names : Names) : Nat :=
  names.entries.length

end Names

/-- What the walk knows at one point: the variables in scope, how often each
spelling was declared, and the names given so far. -/
structure Resolver where
  scope : Scope String
  counts : List (String × Nat)
  names : Names
deriving Inhabited

namespace Resolver

/-- Nothing declared yet. -/
def start : Resolver :=
  ⟨Scope.empty, [], Names.empty⟩

/-- How often a spelling was declared. -/
def count (spelling : String) (resolver : Resolver) : Nat :=
  (resolver.counts.lookup spelling).getD 0

/-- The name of the `count`-th declaration of a spelling. -/
def nameOf (spelling : String) (count : Nat) : String :=
  if count = 1 then spelling else spelling ++ toString count

def push (resolver : Resolver) : Resolver :=
  { resolver with scope := resolver.scope.push }

def pop (resolver : Resolver) : Resolver :=
  { resolver with scope := resolver.scope.pop }

/-- Declares the variable at a site, with a name of its own. -/
def declare (program : Program) (site : Site) (resolver : Resolver) : Resolver :=
  let spelling := program.text site
  let count := resolver.count spelling + 1
  let name := nameOf spelling count
  { scope := resolver.scope.bind spelling name
    counts := (spelling, count) :: resolver.counts
    names := resolver.names.insert site name }

/-- Gives an occurrence the name of the visible declaration, if there is one. -/
def resolve (program : Program) (site : Site) (resolver : Resolver) : Resolver :=
  match resolver.scope.lookup (program.text site) with
  | some name => { resolver with names := resolver.names.insert site name }
  | none => resolver

/-- The variable a parameter declares, if it is a plain one. -/
def parameter? (node : Node) : Option Node :=
  match node.kind with
  | .identifier => some node
  | .requiredParameter | .optionalParameter =>
    (node.field? .pattern).filter fun pattern => pattern.kind = .identifier
  | .assignmentPattern =>
    (node.field? .left).filter fun left => left.kind = .identifier
  | _ => none

/-- Declares the parameters of a function from left to right. -/
def declareParameters (program : Program) (parameters : Node) (resolver : Resolver) :
    Resolver :=
  (parameters.namedChildren.filterMap parameter?).foldl
    (fun resolver node => resolver.declare program node.site) resolver

mutual

/-- Walks through one node. -/
def visit (program : Program) : Node → Resolver → Resolver
  | .mk site children, resolver =>
    match site.kind with
    | .identifier | .shorthandIdentifier => resolver.resolve program site
    | .lexicalDeclaration | .variableDeclaration =>
      visitDeclarators program children resolver
    | .statementBlock | .forStatement => (visitNamed program children resolver.push).pop
    | _ => visitNamed program children resolver

/-- Walks through the named ones among several nodes. -/
def visitNamed (program : Program) : List Node → Resolver → Resolver
  | [], resolver => resolver
  | child :: rest, resolver =>
    if child.isNamed then visitNamed program rest (visit program child resolver)
    else visitNamed program rest resolver

/-- Walks through the declarators of a declaration. -/
def visitDeclarators (program : Program) : List Node → Resolver → Resolver
  | [], resolver => resolver
  | child :: rest, resolver =>
    if child.isNamed && child.kind = .variableDeclarator then
      visitDeclarators program rest (visitDeclarator program child resolver)
    else visitDeclarators program rest resolver

/-- Walks through the value of a declarator, then declares its name. -/
def visitDeclarator (program : Program) : Node → Resolver → Resolver
  | .mk _ children, resolver =>
    visitDeclared program children (visitValue program children resolver)

/-- Walks through the value among the children of a declarator. -/
def visitValue (program : Program) : List Node → Resolver → Resolver
  | [], resolver => resolver
  | child :: rest, resolver =>
    if child.carries .value then visit program child resolver
    else visitValue program rest resolver

/-- Declares the name among the children of a declarator; a pattern is walked
through as if it were an expression. -/
def visitDeclared (program : Program) : List Node → Resolver → Resolver
  | [], resolver => resolver
  | child :: rest, resolver =>
    if child.carries .name then
      if child.kind = .identifier then resolver.declare program child.site
      else visit program child resolver
    else visitDeclared program rest resolver

end

end Resolver

/-- The names of the variables of a program. -/
def Program.names (program : Program) : Names :=
  let entry := program.entry
  let parameters := entry.function.bind (Node.field? .parameters)
  let resolver := match parameters with
    | some parameters => Resolver.start.declareParameters program parameters
    | none => Resolver.start
  (resolver.visitNamed program entry.body.children).names

end DefUse
