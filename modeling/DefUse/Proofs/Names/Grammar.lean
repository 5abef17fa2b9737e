/-
# `Proofs.Names.Grammar` — where a source can hold declarations

The renaming walk goes through the named children of a node, whatever they are; the other
walks pick the parts of a statement by their roles.  Both see the same parts in the same
order because of what the grammar allows, and this is put down here, node by node
(`Node.Regular`): the parts of a structured statement are its children, in the order in
which they are written, and only a statement can hold a declaration that belongs to the
frame around it.

One thing the grammar does allow is a declaration that is the body of a `for`, without a
block.  Then the increment is written before the declaration, and is reached after it
(`Node.ClosedBody` says that this is not so).
-/
import DefUse.Clause
import DefUse.Proofs.Names.Scoping

namespace DefUse.Tree.Node

open DefUse.Names

/-! ## Equality of trees -/

mutual

/-- Are two trees equal? -/
def decEq : (a b : Node) → Decidable (a = b)
  | .mk site children, .mk site' children' =>
    if hsite : site = site' then
      match decEqAll children children' with
      | .isTrue h => .isTrue (by rw [hsite, h])
      | .isFalse h => .isFalse fun heq => h (Node.mk.inj heq).2
    else .isFalse fun heq => hsite (Node.mk.inj heq).1

/-- Are two lists of trees equal? -/
def decEqAll : (as bs : List Node) → Decidable (as = bs)
  | [], [] => .isTrue rfl
  | [], _ :: _ => .isFalse nofun
  | _ :: _, [] => .isFalse nofun
  | a :: as, b :: bs =>
    match decEq a b, decEqAll as bs with
    | .isTrue h, .isTrue h' => .isTrue (by rw [h, h'])
    | .isFalse h, _ => .isFalse fun heq => h (List.cons.inj heq).1
    | .isTrue _, .isFalse h => .isFalse fun heq => h (List.cons.inj heq).2

end

instance : DecidableEq Node :=
  decEq

/-! ## What the grammar says -/

/-- The named nodes directly below that are no comments. -/
def contents (node : Node) : List Node :=
  node.children.filter isContent

/-- The roles of the parts of a structured statement, in the order in which they are written. -/
def layout? : Kind → Option (List Field)
  | .ifStatement => some [.condition, .consequence, .alternative]
  | .whileStatement => some [.condition, .body]
  | .doStatement => some [.body, .condition]
  | .forStatement => some [.initializer, .condition, .increment, .body]
  | _ => none

/-- Is there no statement inside a node of this kind, unless it is in a block? -/
def isLeaf : Kind → Bool
  | .expressionStatement | .returnStatement | .breakStatement | .continueStatement
  | .emptyStatement | .hashBangLine | .comment _ => true
  | _ => false

/-- Is what has this role an expression? -/
def isExpressionRole : Field → Bool
  | .condition | .increment | .value => true
  | _ => false

/-- What the grammar says of a node and its children. -/
structure Regular (node : Node) : Prop where
  inOrder : ∀ fields ∈ layout? node.kind, node.contents = fields.filterMap (field? · node)
  /-- An `else` holds one statement. -/
  clause : node.kind = .elseClause → node.contents.length ≤ 1
  leaf : isLeaf node.kind = true → declares node = false
  expression : ∀ child ∈ node.children, ∀ field ∈ child.site.fields,
    isExpressionRole field = true → declares child = false
  /-- A `for` begins with a declaration or an expression. -/
  initializer : ∀ child ∈ node.children, child.carries .initializer = true →
    isDeclaration child = false → declares child = false

instance (node : Node) : Decidable node.Regular :=
  decidable_of_iff
    ((∀ fields ∈ layout? node.kind, node.contents = fields.filterMap (field? · node)) ∧
      (node.kind = .elseClause → node.contents.length ≤ 1) ∧
      (isLeaf node.kind = true → declares node = false) ∧
      (∀ child ∈ node.children, ∀ field ∈ child.site.fields,
        isExpressionRole field = true → declares child = false) ∧
      ∀ child ∈ node.children, child.carries .initializer = true →
        isDeclaration child = false → declares child = false)
    ⟨fun h => ⟨h.1, h.2.1, h.2.2.1, h.2.2.2.1, h.2.2.2.2⟩,
      fun h => ⟨h.inOrder, h.clause, h.leaf, h.expression, h.initializer⟩⟩

/-- The body of a `for` with an increment declares nothing in the frame of the `for`. -/
def ClosedBody (node : Node) : Prop :=
  node.kind = .forStatement → (ForClauses.ofNode node).increment.isSome = true →
    ∀ body ∈ node.field? .body, declares body = false

instance (node : Node) : Decidable node.ClosedBody :=
  inferInstanceAs (Decidable (_ → _ → ∀ body ∈ node.field? .body, declares body = false))

variable {node child : Node}

theorem Regular.declares_field? (h : node.Regular) {field : Field}
    (hrole : isExpressionRole field = true) (hchild : node.field? field = some child) :
    declares child = false := by
  have hcarries : child.carries field = true := List.find?_some hchild
  exact h.expression child (List.mem_of_find?_eq_some hchild) field
    (List.contains_iff_mem.mp hcarries) hrole

/-- A comment declares nothing. -/
theorem Regular.declares_comment (h : node.Regular) (hnamed : node.isNamed = true)
    (hcontent : node.isContent = false) : declares node = false := by
  have hcomment : node.kind.isComment = true := by
    rw [isContent, hnamed, Bool.true_and, Bool.not_eq_false'] at hcontent
    exact hcontent
  refine h.leaf ?_
  cases hkind : node.kind with
  | comment name => rfl
  | _ =>
      rw [hkind] at hcomment
      cases hcomment

end DefUse.Tree.Node
