/-
# `Proofs.Effect.Hidden` — what can hide inside an expression

What an expression reads is only worth something if nothing inside it writes, and if no
code stands inside it that runs at another time.  So reading refuses the kinds of node
that do (`Kind.isRefused`).  Here it is compared with all nodes of the expression, tokens
included, and leaving out what a member access has besides its object
(`Node.evaluated`): there are variables read if and only if none of these nodes is of a
refused kind (`exists_reads_iff`).

But the kinds that are refused are not all that hold code.  A method of an object and a
namespace hold statements and are let through, and a declaration inside of them is taken
for a part of the expression (`reads_not_pure`).  On trees as the grammar makes them
(`Node.IsExpression`) this is the only gap: where variables are read all writes are
declarations, and each of them stands in a method or in a namespace
(`reads_pure_outside`).
-/
import DefUse.Proofs.Effect.Within
import DefUse.Proofs.Graph.Build
import DefUse.Proofs.Names.Grammar

namespace DefUse

open DefUse.Tree

namespace Tree

namespace Kind

/-- Is it an expression that writes? -/
def isWrite : Kind → Bool
  | .assignmentExpression | .augmentedAssignment | .updateExpression => true
  | _ => false

/-- Is it an expression with code of its own? -/
def isClosure : Kind → Bool
  | .functionExpression | .functionKeyword | .arrowFunction | .generatorFunction
  | .classExpression => true
  | _ => false

/-- Is an expression refused in which there is a node of this kind? -/
def isRefused (kind : Kind) : Bool :=
  kind.isWrite || kind.isClosure

/-- Does it hold statements without being refused: the method of an object, or a namespace? -/
def isLetThrough : Kind → Bool
  | .other name => name = "method_definition" || name = "internal_module"
  | _ => false

/-- Is it a function or a class that is declared by a statement? -/
def isDeclaredFunction : Kind → Bool
  | .functionDeclaration | .generatorDeclaration => true
  | .other name => name = "class_declaration" || name = "abstract_class_declaration"
  | _ => false

/-- Has it a body of its own: a function, a class or a method? -/
def isFunctionLike (kind : Kind) : Bool :=
  kind.isClosure || kind.isDeclaredFunction || kind = .other "method_definition"

end Kind

namespace Node

mutual

/-- The node and all nodes below it, but of a member access only the object. -/
def evaluated : Node → List Node
  | mk site children =>
    mk site children ::
      if site.kind = .memberExpression then evaluatedField .object children
      else evaluatedAll children

/-- The nodes of the first child in role `field`. -/
def evaluatedField (field : Field) : List Node → List Node
  | [] => []
  | child :: rest => if child.carries field then child.evaluated else evaluatedField field rest

/-- The nodes of several trees. -/
def evaluatedAll : List Node → List Node
  | [] => []
  | child :: rest => child.evaluated ++ evaluatedAll rest

end

theorem mem_evaluated_self (node : Node) : node ∈ node.evaluated := by
  cases node
  rw [evaluated]
  exact List.mem_cons_self

/-- If the node is named, its kind is not refused. -/
def Allowed (node : Node) : Prop :=
  node.isNamed = true → node.kind.isRefused = false

/-- Nothing is below tokens and variables, and the object of a member access is no token. -/
structure Plain (node : Node) : Prop where
  leaf : node.isNamed = false ∨ node.site.isVariable = true → node.children = []
  object : node.kind = .memberExpression → ∀ object ∈ node.field? .object, object.isNamed = true

instance (node : Node) : Decidable node.Plain :=
  decidable_of_iff ((node.isNamed = false ∨ node.site.isVariable = true → node.children = []) ∧
    (node.kind = .memberExpression → ∀ object ∈ node.field? .object, object.isNamed = true))
    ⟨fun h => ⟨h.1, h.2⟩, fun h => ⟨h.leaf, h.object⟩⟩

/-- A node with nothing below it is the only one of its tree. -/
theorem evaluated_of_leaf {node : Node} (h : node.children = []) : node.evaluated = [node] := by
  obtain ⟨site, children⟩ := node
  cases h
  rw [evaluated]
  split <;> rfl

end Node

end Tree

/-! ## When variables are read -/

/-- Reading goes by the kind of the node, in one of four ways. -/
theorem reads_cases (site : Site) (children : List Node) :
    (site.kind.isRefused = true ∧ ∃ reason, reads (.mk site children) = .error reason) ∨
    site.kind.isRefused = false ∧
      (site.isVariable = true ∧ reads (.mk site children) = .ok [site] ∨
      site.kind = .memberExpression ∧
        reads (.mk site children) = readsField .object children ∨
      site.kind ≠ .memberExpression ∧ reads (.mk site children) = readsNamed children) := by
  rw [reads, Site.isVariable]
  cases site.kind <;> simp [Kind.isRefused, Kind.isWrite, Kind.isClosure]

open Node

mutual

/-- Variables are read if and only if nothing evaluated is of a refused kind. -/
theorem exists_reads_iff : ∀ e : Node, e.isNamed = true → (∀ node ∈ e.evaluated, node.Plain) →
    ((∃ sites, reads e = .ok sites) ↔ ∀ node ∈ e.evaluated, node.Allowed)
  | .mk site children, hnamed, hplain => by
      have hself := hplain _ (mem_evaluated_self (.mk site children))
      rcases reads_cases site children with ⟨hrefused, reason, herror⟩ |
        ⟨hallowed, ⟨hvariable, hreads⟩ | ⟨hmember, hreads⟩ | ⟨hmember, hreads⟩⟩
      · -- refused on the spot
        constructor
        · rintro ⟨sites, hok⟩
          rw [herror] at hok
          cases hok
        · intro hall
          have hself := hall _ (mem_evaluated_self (.mk site children)) hnamed
          exact absurd (hself.symm.trans hrefused) Bool.false_ne_true
      · rw [evaluated_of_leaf (hself.leaf (.inr hvariable)), hreads]
        refine ⟨fun _ node hnode _ => ?_, fun _ => ⟨_, rfl⟩⟩
        rw [List.mem_singleton.mp hnode]
        exact hallowed
      · rw [evaluated, if_pos hmember] at hplain ⊢
        rw [hreads, exists_readsField_iff .object children (hself.object hmember)
          fun node hnode => hplain node (List.mem_cons_of_mem _ hnode)]
        exact (List.forall_mem_cons.trans (and_iff_right fun _ => hallowed)).symm
      · rw [evaluated, if_neg hmember] at hplain ⊢
        rw [hreads, exists_readsNamed_iff children
          fun node hnode => hplain node (List.mem_cons_of_mem _ hnode)]
        exact (List.forall_mem_cons.trans (and_iff_right fun _ => hallowed)).symm

theorem exists_readsField_iff (field : Field) : ∀ children : List Node,
    (∀ child ∈ children.find? (carries field), child.isNamed = true) →
    (∀ node ∈ evaluatedField field children, node.Plain) →
    ((∃ sites, readsField field children = .ok sites) ↔
      ∀ node ∈ evaluatedField field children, node.Allowed)
  | [], _, _ => ⟨fun _ _ h => (nomatch h), fun _ => ⟨[], rfl⟩⟩
  | child :: rest, hnamed, hplain => by
      rw [readsField]
      rw [evaluatedField] at hplain ⊢
      rw [List.find?_cons] at hnamed
      cases hcarries : child.carries field with
      | true =>
          rw [hcarries] at hnamed hplain
          exact exists_reads_iff child (hnamed child rfl) hplain
      | false =>
          rw [hcarries] at hnamed hplain
          exact exists_readsField_iff field rest hnamed hplain

theorem exists_readsNamed_iff : ∀ children : List Node,
    (∀ node ∈ evaluatedAll children, node.Plain) →
    ((∃ sites, readsNamed children = .ok sites) ↔ ∀ node ∈ evaluatedAll children, node.Allowed)
  | [], _ => ⟨fun _ _ h => (nomatch h), fun _ => ⟨[], rfl⟩⟩
  | child :: rest, hplain => by
      rw [evaluatedAll] at hplain ⊢
      rw [List.forall_mem_append] at hplain ⊢
      have ih := exists_readsNamed_iff rest hplain.2
      rw [readsNamed]
      cases hnamed : child.isNamed with
      | true =>
          have hchild := exists_reads_iff child hnamed hplain.1
          rw [← hchild, ← ih, if_pos rfl]
          cases reads child with
          | error reason => simp
          | ok first =>
              cases readsNamed rest with
              | error reason => simp
              | ok others => simp
      | false =>
          -- a token has nothing below it, and is of no consequence itself
          have hleaf := (hplain.1 child child.mem_evaluated_self).leaf (.inl hnamed)
          have hallowed : child.Allowed := fun h => absurd (h.symm.trans hnamed) Bool.noConfusion
          simp only [Bool.false_eq_true, if_false, ih, evaluated_of_leaf hleaf,
            List.forall_mem_singleton, hallowed, true_and]

end

/-! ## What is hidden then -/

namespace Tree.Node

/-- What the grammar says of an expression.  Statements stand in it only inside of something
that holds code: a function, a class, a method or a namespace. -/
structure IsExpression (e : Node) : Prop where
  named : e.isNamed = true
  plain : ∀ node ∈ e.evaluated, node.Plain
  enclosed : ∀ node ∈ e.evaluated, node.isNamed = true →
    node.kind = .variableDeclarator ∨ node.kind.isDeclaredFunction = true →
    ∃ outer ∈ e.evaluated, outer.isNamed = true ∧
      (outer.kind.isClosure = true ∨ outer.kind.isLetThrough = true) ∧ node ∈ outer.evaluated

instance (e : Node) : Decidable e.IsExpression :=
  decidable_of_iff (e.isNamed = true ∧ (∀ node ∈ e.evaluated, node.Plain) ∧
    ∀ node ∈ e.evaluated, node.isNamed = true →
      node.kind = .variableDeclarator ∨ node.kind.isDeclaredFunction = true →
      ∃ outer ∈ e.evaluated, outer.isNamed = true ∧
        (outer.kind.isClosure = true ∨ outer.kind.isLetThrough = true) ∧ node ∈ outer.evaluated)
    ⟨fun h => ⟨h.1, h.2.1, h.2.2⟩, fun h => ⟨h.named, h.plain, h.enclosed⟩⟩

/-- Is it inside of something that is let through, or such a thing itself? -/
def LetThrough (e node : Node) : Prop :=
  ∃ outer ∈ e.evaluated, outer.isNamed = true ∧ outer.kind.isLetThrough = true ∧
    node ∈ outer.evaluated

/-- If nothing is refused, what holds a statement was let through. -/
theorem IsExpression.letThrough {e node : Node} (h : e.IsExpression)
    (hallowed : ∀ other ∈ e.evaluated, other.Allowed) (hnode : node ∈ e.evaluated)
    (hnamed : node.isNamed = true)
    (hkind : node.kind = .variableDeclarator ∨ node.kind.isDeclaredFunction = true) :
    e.LetThrough node := by
  obtain ⟨outer, houter, houterNamed, hclosure | hthrough, hinside⟩ :=
    h.enclosed node hnode hnamed hkind
  · have hrefused := hallowed outer houter houterNamed
    rw [Kind.isRefused, hclosure, Bool.or_true] at hrefused
    cases hrefused
  · exact ⟨outer, houter, houterNamed, hthrough, hinside⟩

end Tree.Node

namespace Assignment

variable {node : Node} {assignment : Assignment}

/-- A write has parts. -/
theorem ofNode?_of_leaf (h : node.children = []) : ofNode? node = none := by
  have hfield : ∀ field, node.field? field = none := fun field => by
    rw [Node.field?, h]
    rfl
  have htarget : target? node = none := by
    rw [target?]
    split <;> simp [hfield]
  rw [ofNode?, htarget]

/-- What writes is a declarator or of a refused kind. -/
theorem kind_of_ofNode? (hmakes : ofNode? node = some assignment)
    (hallowed : node.kind.isRefused = false) :
    node.kind = .variableDeclarator ∧ assignment.kind = .declaration := by
  rw [ofNode?, target?] at hmakes
  cases hkind : node.kind with
  | variableDeclarator =>
      refine ⟨rfl, ?_⟩
      cases hvalue : node.field? .value <;> cases hname : node.field? .name <;>
        simp [hkind, hvalue, hname] at hmakes
      obtain ⟨-, rfl⟩ := hmakes
      rfl
  | assignmentExpression | augmentedAssignment | updateExpression =>
      rw [hkind] at hallowed
      cases hallowed
  | _ => simp [hkind] at hmakes

end Assignment

/-- The variables of an expression are read if and only if nothing in it is of a refused kind.
Then all writes in it are declarations, and everything that writes or has a body of its own
is, or stands in, the method of an object or a namespace. -/
theorem reads_pure_outside {e : Node} (h : e.IsExpression) :
    ((∃ sites, reads e = .ok sites) ↔
      ∀ node ∈ e.evaluated, node.isNamed = true → node.kind.isRefused = false) ∧
    ((∃ sites, reads e = .ok sites) → ∀ node ∈ e.evaluated,
      (∀ assignment, Assignment.ofNode? node = some assignment →
        assignment.kind = .declaration ∧ e.LetThrough node) ∧
      (node.isNamed = true → node.kind.isFunctionLike = true → e.LetThrough node)) := by
  have hreads := exists_reads_iff e h.named h.plain
  refine ⟨hreads, ?_⟩
  intro hok node hnode
  have hallowed := hreads.mp hok
  constructor
  · intro assignment hmakes
    cases hnamed : node.isNamed with
    | true =>
        obtain ⟨hkind, hdeclaration⟩ :=
          Assignment.kind_of_ofNode? hmakes (hallowed node hnode hnamed)
        exact ⟨hdeclaration, h.letThrough hallowed hnode hnamed (.inl hkind)⟩
    | false =>
        rw [Assignment.ofNode?_of_leaf ((h.plain node hnode).leaf (.inl hnamed))] at hmakes
        cases hmakes
  · intro hnamed hfunction
    have hrefused := hallowed node hnode hnamed
    simp only [Kind.isRefused, Bool.or_eq_false_iff] at hrefused
    simp only [Kind.isFunctionLike, hrefused.2, Bool.false_or, Bool.or_eq_true,
      decide_eq_true_eq] at hfunction
    rcases hfunction with hdeclared | hmethod
    · exact h.letThrough hallowed hnode hnamed (.inr hdeclared)
    · exact ⟨node, hnode, hnamed, by rw [hmethod]; rfl, node.mem_evaluated_self⟩

/-- The expression `({ m() { let y = z } })`: an object with a method that declares a variable. -/
def methodExpression : Node :=
  Node.number 0 (Program.sampleNode .parenthesizedExpression 0 23 []
    [Program.sampleNode (.other "object") 1 22 []
      [Program.sampleNode (.other "method_definition") 3 20 []
        [Program.sampleNode (.other "property_identifier") 3 4 [.name] [],
          Program.sampleNode (.other "formal_parameters") 4 6 [.parameters] [],
          Program.sampleNode .statementBlock 7 20 [.body]
            [Program.sampleNode .lexicalDeclaration 9 18 []
              [Program.sampleNode .variableDeclarator 13 18 []
                [Program.sampleNode .identifier 13 14 [.name] [],
                  Program.sampleNode .identifier 17 18 [.value] []]]]]]])

theorem reads_pure_outside_method : methodExpression.IsExpression ∧
    ∀ node ∈ methodExpression.evaluated, ∀ assignment,
      Assignment.ofNode? node = some assignment →
        assignment.kind = .declaration ∧ methodExpression.LetThrough node := by
  have hexpression : methodExpression.IsExpression := by decide +kernel
  have hinside := (reads_pure_outside hexpression).2 ⟨_, rfl⟩
  exact ⟨hexpression, fun node hnode => (hinside node hnode).1⟩

/-- A write and a method are hidden in an expression whose variables are read. -/
theorem reads_not_pure : ∃ sites, reads methodExpression = .ok sites ∧
    (∃ node ∈ methodExpression.evaluated, (Assignment.ofNode? node).isSome = true) ∧
    ∃ node ∈ methodExpression.evaluated, node.isNamed = true ∧ node.kind.isFunctionLike = true :=
  ⟨_, rfl, by decide +kernel⟩

end DefUse
