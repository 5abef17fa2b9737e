/-
# `Tree.Node` — syntax trees

A node is a *site* (its kind, its place in the source, its role below its
parent and its number) with the nodes below it.  The analyses hand sites
around, not nodes: a site says which piece of source is meant, can be compared,
and does not change when something below the node does.

Sites are told apart by their number.  `Node.number` numbers a tree in
pre-order, so that no two sites of a numbered tree are equal
(`Node.nodup_ids_number`).
-/
import DefUse.Tree.Kind

namespace DefUse.Tree

/-- A piece of the source: what is known of a node without the nodes below it.
Offsets and columns count bytes of the source; `row` and `column` start at zero. -/
structure Site where
  /-- The number of the node in its tree. -/
  id : Nat
  kind : Kind
  /-- Does the grammar give the node a name of its own (no mere token)? -/
  named : Bool
  /-- Is the node, or something below it, broken? -/
  hasError : Bool
  /-- Is it a stretch of source that fits no rule? -/
  isError : Bool
  /-- Was it supplied by the parser, without source of its own? -/
  isMissing : Bool
  start : Nat
  stop : Nat
  row : Nat
  column : Nat
  /-- The roles of the node below its parent. -/
  fields : List Field
deriving DecidableEq, Inhabited

namespace Site

/-- One-based line of the first character. -/
def line (site : Site) : Nat :=
  site.row + 1

/-- The kind with the one-based position, `kind@line:column`. -/
def describe (site : Site) : String :=
  site.kind.name ++ "@" ++ toString (site.row + 1) ++ ":" ++ toString (site.column + 1)

/-- Document order: the earlier start first, of two with one start the longer,
of two with one extent the smaller number. -/
def before (a b : Site) : Bool :=
  if a.start = b.start then
    if a.stop = b.stop then a.id < b.id else b.stop < a.stop
  else a.start < b.start

/-- Does the extent of `owner` cover that of `site`? -/
def covers (owner site : Site) : Bool :=
  owner.start ≤ site.start && site.stop ≤ owner.stop

/-- Is it a comment? -/
def isComment (site : Site) : Bool :=
  site.kind.isComment

end Site

/-- A syntax tree. -/
inductive Node where
  | mk (site : Site) (children : List Node)
deriving Inhabited

namespace Node

/-- The site of the node itself. -/
def site : Node → Site
  | mk site _ => site

/-- The nodes directly below, tokens included. -/
def children : Node → List Node
  | mk _ children => children

@[simp] theorem site_mk (s : Site) (cs : List Node) : (mk s cs).site = s := rfl

@[simp] theorem children_mk (s : Site) (cs : List Node) : (mk s cs).children = cs := rfl

def kind (node : Node) : Kind :=
  node.site.kind

def isNamed (node : Node) : Bool :=
  node.site.named

def isComment (node : Node) : Bool :=
  node.site.isComment

def line (node : Node) : Nat :=
  node.site.line

/-- Does the node have role `field` below its parent? -/
def carries (field : Field) (node : Node) : Bool :=
  node.site.fields.contains field

/-- A named node that is no comment. -/
def isContent (node : Node) : Bool :=
  node.isNamed && !node.isComment

/-- The child in role `field`. -/
def field? (field : Field) (node : Node) : Option Node :=
  node.children.find? (carries field)

/-- The named nodes directly below. -/
def namedChildren (node : Node) : List Node :=
  node.children.filter isNamed

/-- The first named child that is no comment. -/
def firstNamed? (node : Node) : Option Node :=
  node.children.find? isContent

/-! ## Parentheses -/

mutual

/-- The node inside any number of enclosing parentheses.  Parentheses around
nothing are kept. -/
def unparenthesized : Node → Node
  | mk site children =>
    if site.kind = .parenthesizedExpression then
      (unparenthesizedFirst children).getD (mk site children)
    else mk site children

/-- The first named child that is no comment, without its parentheses. -/
def unparenthesizedFirst : List Node → Option Node
  | [] => none
  | child :: rest =>
    if child.isContent then some child.unparenthesized else unparenthesizedFirst rest

end

/-! ## Walks over the whole tree -/

mutual

/-- All sites, in pre-order. -/
def sites : Node → List Site
  | mk site children => site :: sitesAll children

/-- All sites of several trees, one tree after the other. -/
def sitesAll : List Node → List Site
  | [] => []
  | child :: rest => child.sites ++ sitesAll rest

end

/-- The numbers of all nodes, in pre-order. -/
def ids (node : Node) : List Nat :=
  node.sites.map Site.id

mutual

/-- The node and the named nodes below it that are reached through named nodes,
in pre-order. -/
def namedNodes : Node → List Node
  | mk site children => mk site children :: namedNodesAll children

/-- The named nodes of several trees, one tree after the other. -/
def namedNodesAll : List Node → List Node
  | [] => []
  | child :: rest =>
    if child.isNamed then child.namedNodes ++ namedNodesAll rest else namedNodesAll rest

end

/-! ## Numbering -/

mutual

/-- How many nodes the tree has. -/
def size : Node → Nat
  | mk _ children => sizeAll children + 1

/-- How many nodes several trees have. -/
def sizeAll : List Node → Nat
  | [] => 0
  | child :: rest => child.size + sizeAll rest

end

mutual

/-- The tree with its nodes numbered in pre-order, the root having number `first`. -/
def number (first : Nat) : Node → Node
  | mk site children => mk { site with id := first } (numberAll (first + 1) children)

/-- Several trees numbered one after the other. -/
def numberAll (first : Nat) : List Node → List Node
  | [] => []
  | child :: rest => child.number first :: numberAll (first + child.size) rest

end

mutual

/-- Numbering a tree gives consecutive numbers. -/
theorem ids_number (first : Nat) : ∀ node : Node,
    (node.number first).sites.map Site.id = List.range' first node.size
  | mk site children => by
    simp [number, sites, size, List.range'_succ, ids_numberAll (first + 1) children]

theorem ids_numberAll (first : Nat) : ∀ nodes : List Node,
    (sitesAll (numberAll first nodes)).map Site.id = List.range' first (sizeAll nodes)
  | [] => by simp [numberAll, sitesAll, sizeAll]
  | child :: rest => by
    simp [numberAll, sitesAll, sizeAll, ids_number first child,
      ids_numberAll (first + child.size) rest]

end

/-- No number is given twice. -/
theorem nodup_ids_number (first : Nat) (node : Node) : (node.number first).ids.Nodup := by
  rw [ids, ids_number]
  exact List.nodup_range'

/-! ## Broken source -/

mutual

/-- Where the source is broken first: the outermost node in pre-order that is an
error or missing, among nodes marked as broken.  A marked node with nothing
broken to show below it answers for itself. -/
def firstBroken? : Node → Option Site
  | mk site children =>
    if site.hasError then
      if site.isError || site.isMissing then some site
      else some ((firstBrokenIn children).getD site)
    else none

/-- The first broken site among several trees. -/
def firstBrokenIn : List Node → Option Site
  | [] => none
  | child :: rest =>
    match child.firstBroken? with
    | some site => some site
    | none => firstBrokenIn rest

end

end Node

end DefUse.Tree
