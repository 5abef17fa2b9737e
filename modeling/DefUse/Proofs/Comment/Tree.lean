/-
# `Proofs.Comment.Tree` — trees without their comments

Comments are nodes like all others, and stand anywhere between them.  `Node.uncommented`
leaves them out and keeps every other node with its site, in its place.  What the
analyses take from a node are its parts: the child in a role, the first child with
content, the children of a kind, what is inside of parentheses.  None of them is a
comment, so leaving comments out commutes with taking a part.

For the child in a role this needs that comments have no role; and later it matters that
nothing is below a comment.  `Node.BareComments` asks for both.
-/
import DefUse.Clause
import DefUse.Proofs.Tree.Nodes

namespace DefUse.Tree.Node

open scoped List

mutual

/-- The tree without the comments below its root. -/
def uncommented : Node → Node
  | mk site children => mk site (uncommentedAll children)

/-- Several trees, without those that are comments and without the comments in the others. -/
def uncommentedAll : List Node → List Node
  | [] => []
  | child :: rest =>
    if child.isComment then uncommentedAll rest else child.uncommented :: uncommentedAll rest

end

/-- Each comment among some nodes is a leaf and has no role. -/
def BareComments (nodes : List Node) : Prop :=
  ∀ node ∈ nodes, node.isComment = true → node.children = [] ∧ node.site.fields = []

/-- The comments in a tree are leaves and have no role. -/
def Bare (node : Node) : Prop :=
  BareComments node.nodes

theorem BareComments.mono {nodes fewer : List Node} (h : BareComments nodes)
    (hsubset : fewer ⊆ nodes) : BareComments fewer :=
  fun node hnode => h node (hsubset hnode)

theorem BareComments.below {node : Node} (h : BareComments node.nodes) :
    BareComments (nodesAll node.children) :=
  h.mono node.nodesAll_sublist.subset

theorem BareComments.of_mem {children : List Node} (h : BareComments (nodesAll children))
    {child : Node} (hchild : child ∈ children) : BareComments child.nodes :=
  h.mono (sublist_of_mem hchild).subset

theorem BareComments.first {child : Node} {rest : List Node}
    (h : BareComments (nodesAll (child :: rest))) : BareComments child.nodes :=
  h.of_mem List.mem_cons_self

theorem BareComments.rest {child : Node} {rest : List Node}
    (h : BareComments (nodesAll (child :: rest))) : BareComments (nodesAll rest) :=
  h.mono (List.subset_append_right _ _)

section Children

variable {children : List Node} {child : Node}

theorem BareComments.leaf (h : BareComments (nodesAll children)) (hchild : child ∈ children)
    (hcomment : child.isComment = true) : child.children = [] :=
  (h child (mem_nodesAll hchild) hcomment).1

theorem BareComments.carries (h : BareComments (nodesAll children)) (hchild : child ∈ children)
    (hcomment : child.isComment = true) (field : Field) : child.carries field = false := by
  rw [Node.carries, (h child (mem_nodesAll hchild) hcomment).2]
  rfl

end Children

theorem BareComments.field? {node part : Node} {field : Field} (h : BareComments node.nodes)
    (hpart : node.field? field = some part) : BareComments part.nodes :=
  h.below.of_mem (List.mem_of_find?_eq_some hpart)

theorem BareComments.firstNamed? {node part : Node} (h : BareComments node.nodes)
    (hpart : node.firstNamed? = some part) : BareComments part.nodes :=
  h.below.of_mem (List.mem_of_find?_eq_some hpart)

section Parts

variable {node : Node} {nodes : List Node}

@[simp] theorem site_uncommented (node : Node) : node.uncommented.site = node.site := by
  cases node
  rfl

@[simp] theorem children_uncommented (node : Node) :
    node.uncommented.children = uncommentedAll node.children := by
  cases node
  rfl

@[simp] theorem kind_uncommented (node : Node) : node.uncommented.kind = node.kind := by
  rw [kind, site_uncommented]
  rfl

@[simp] theorem line_uncommented (node : Node) : node.uncommented.line = node.line := by
  rw [line, site_uncommented]
  rfl

@[simp] theorem isNamed_uncommented (node : Node) : node.uncommented.isNamed = node.isNamed := by
  rw [isNamed, site_uncommented]
  rfl

@[simp] theorem isContent_uncommented (node : Node) :
    node.uncommented.isContent = node.isContent := by
  rw [isContent, isNamed_uncommented, isComment, site_uncommented]
  rfl

@[simp] theorem carries_uncommented (field : Field) (node : Node) :
    node.uncommented.carries field = node.carries field := by
  rw [carries, site_uncommented]
  rfl

theorem uncommentedAll_eq (nodes : List Node) :
    uncommentedAll nodes = (nodes.filter fun node => !node.isComment).map uncommented := by
  induction nodes with
  | nil => rfl
  | cons child rest ih =>
      rw [uncommentedAll, List.filter_cons]
      cases child.isComment with
      | true => exact ih
      | false => exact congrArg (child.uncommented :: ·) ih

/-- Comments are not among the nodes with a property that no comment has. -/
theorem filter_uncommentedAll {p : Node → Bool} (hp : ∀ node, p node.uncommented = p node)
    (hcomment : ∀ node ∈ nodes, node.isComment = true → p node = false) :
    (uncommentedAll nodes).filter p = (nodes.filter p).map uncommented := by
  have hcomp : p ∘ uncommented = p := funext hp
  rw [uncommentedAll_eq, List.filter_map, hcomp, List.filter_filter]
  refine congrArg _ (List.filter_congr ?_)
  intro node hnode
  cases hc : node.isComment with
  | true => simp [hcomment node hnode hc]
  | false => simp

theorem find?_uncommentedAll {p : Node → Bool} (hp : ∀ node, p node.uncommented = p node)
    (hcomment : ∀ node ∈ nodes, node.isComment = true → p node = false) :
    (uncommentedAll nodes).find? p = (nodes.find? p).map uncommented := by
  rw [← List.head?_filter, ← List.head?_filter, filter_uncommentedAll hp hcomment, List.head?_map]

theorem filter_map_uncommented {p : Node → Bool} (hp : ∀ node, p node.uncommented = p node)
    (part : Option Node) :
    (part.map uncommented).filter p = (part.filter p).map uncommented := by
  rw [Option.filter_map]
  exact congrArg (fun q => (part.filter q).map uncommented) (funext hp)

/-- The named children are those that are no comments. -/
theorem namedChildren_uncommented (node : Node) : node.uncommented.namedChildren =
    (node.namedChildren.filter fun child => !child.isComment).map uncommented := by
  have hcomp : isNamed ∘ uncommented = isNamed := funext isNamed_uncommented
  rw [namedChildren, children_uncommented, uncommentedAll_eq, List.filter_map, hcomp,
    List.filter_comm]
  rfl

theorem kind_of_isComment (h : node.isComment = true) : ∃ name, node.kind = .comment name := by
  have hkind : node.kind.isComment = true := h
  generalize node.kind = kind at hkind ⊢
  cases kind with
  | comment name => exact ⟨name, rfl⟩
  | _ => cases hkind

theorem kind_ne_of_isComment (h : node.isComment = true) {kind : Kind}
    (hkind : kind.isComment = false) : node.kind ≠ kind := by
  rintro rfl
  exact Bool.false_ne_true (hkind.symm.trans h)

theorem isContent_of_isComment (h : node.isComment = true) : node.isContent = false := by
  rw [isContent, h, Bool.not_true, Bool.and_false]

/-- The child in a role is no comment. -/
theorem field?_uncommented (h : BareComments (nodesAll node.children)) (field : Field) :
    node.uncommented.field? field = (node.field? field).map uncommented := by
  rw [field?, children_uncommented]
  refine find?_uncommentedAll (carries_uncommented field) ?_
  intro child hchild hcomment
  exact h.carries hchild hcomment field

/-- The first child with content is no comment. -/
theorem firstNamed?_uncommented (node : Node) :
    node.uncommented.firstNamed? = node.firstNamed?.map uncommented := by
  rw [firstNamed?, children_uncommented]
  exact find?_uncommentedAll isContent_uncommented fun _ _ => isContent_of_isComment

mutual

/-- Neither is what is inside of parentheses. -/
theorem unparenthesized_uncommented : ∀ node : Node,
    node.uncommented.unparenthesized = node.unparenthesized.uncommented
  | mk site children => by
      rw [uncommented, unparenthesized, unparenthesized]
      split
      · rw [unparenthesizedFirst_uncommentedAll children]
        cases unparenthesizedFirst children <;> rfl
      · rfl

theorem unparenthesizedFirst_uncommentedAll : ∀ nodes : List Node,
    unparenthesizedFirst (uncommentedAll nodes) = (unparenthesizedFirst nodes).map uncommented
  | [] => rfl
  | child :: rest => by
      rw [uncommentedAll, unparenthesizedFirst]
      split
      · rename_i hcomment
        rw [isContent_of_isComment hcomment]
        exact unparenthesizedFirst_uncommentedAll rest
      · rw [unparenthesizedFirst, isContent_uncommented]
        split
        · rw [unparenthesized_uncommented child]
          rfl
        · exact unparenthesizedFirst_uncommentedAll rest

end

mutual

/-- No site is added. -/
theorem sites_uncommented_sublist : ∀ node : Node, node.uncommented.sites <+ node.sites
  | mk site children => by
      rw [uncommented, sites, sites]
      exact (sitesAll_uncommentedAll_sublist children).cons_cons site

theorem sitesAll_uncommentedAll_sublist : ∀ nodes : List Node,
    sitesAll (uncommentedAll nodes) <+ sitesAll nodes
  | [] => List.Sublist.refl _
  | child :: rest => by
      rw [uncommentedAll, sitesAll]
      split
      · exact (sitesAll_uncommentedAll_sublist rest).trans (List.sublist_append_right _ _)
      · rw [sitesAll]
        exact (sites_uncommented_sublist child).append (sitesAll_uncommentedAll_sublist rest)

end

mutual

theorem sites_uncommented : ∀ node : Node, BareComments node.nodes →
    node.uncommented.sites =
      node.site :: (sitesAll node.children).filter fun site => !site.isComment
  | mk site children, h => by
      rw [uncommented, sites, sitesAll_uncommentedAll children h.below]
      rfl

/-- All sites are left but those of comments, in the order that they had. -/
theorem sitesAll_uncommentedAll : ∀ nodes : List Node, BareComments (nodesAll nodes) →
    sitesAll (uncommentedAll nodes) = (sitesAll nodes).filter fun site => !site.isComment
  | [], _ => rfl
  | child :: rest, h => by
      have ih := sitesAll_uncommentedAll rest h.rest
      have hchild : child.sites = child.site :: sitesAll child.children := by
        cases child
        rfl
      rw [uncommentedAll, sitesAll, List.filter_append, ← ih, hchild, List.filter_cons]
      cases hcomment : child.isComment with
      | true =>
          have hkind : child.site.isComment = true := hcomment
          rw [h.leaf List.mem_cons_self hcomment, hkind]
          rfl
      | false =>
          have hkind : child.site.isComment = false := hcomment
          rw [hkind, if_neg Bool.false_ne_true, sitesAll,
            sites_uncommented child h.first]
          rfl

end

end Parts

end DefUse.Tree.Node

namespace DefUse

open DefUse.Tree

namespace ForClauses

theorem present_uncommented (node : Node) : present node.uncommented = present node := by
  rw [present, Node.isNamed_uncommented, Node.kind_uncommented]
  rfl

theorem expression?_uncommented (node : Node) :
    expression? node.uncommented = (expression? node).map Node.uncommented := by
  rw [expression?, expression?, Node.kind_uncommented, Node.firstNamed?_uncommented]
  split <;> rfl

/-- The clauses of a `for`, without their comments. -/
def uncommented (clauses : ForClauses) : ForClauses where
  initializer := clauses.initializer.map Node.uncommented
  condition := clauses.condition.map Node.uncommented
  increment := clauses.increment.map Node.uncommented
  body := clauses.body.map Node.uncommented

theorem ofNode_uncommented {node : Node} (h : Node.BareComments (Node.nodesAll node.children)) :
    ofNode node.uncommented = (ofNode node).uncommented := by
  have hpresent : ∀ part : Option Node, (part.map Node.uncommented).filter present =
      (part.filter present).map Node.uncommented :=
    Node.filter_map_uncommented present_uncommented
  have hexpression : ∀ part : Option Node, (part.map Node.uncommented).bind expression? =
      (part.bind expression?).map Node.uncommented := by
    intro part
    cases part with
    | none => rfl
    | some part => exact expression?_uncommented part
  simp only [ofNode, uncommented, Node.field?_uncommented h, hpresent, hexpression]

/-- The clauses are parts of the `for`. -/
theorem bare_ofNode {node : Node} (h : Node.BareComments node.nodes) :
    (∀ part ∈ (ofNode node).initializer, Node.BareComments part.nodes) ∧
      (∀ part ∈ (ofNode node).condition, Node.BareComments part.nodes) ∧
      ∀ part ∈ (ofNode node).increment, Node.BareComments part.nodes := by
  have hfield : ∀ field, ∀ part ∈ (node.field? field).filter present,
      Node.BareComments part.nodes :=
    fun field part hpart => h.field? (Option.mem_filter_iff.mp hpart).1
  refine ⟨hfield .initializer, ?_, hfield .increment⟩
  intro part hpart
  obtain ⟨condition, hcondition, hpart⟩ := Option.mem_bind_iff.mp hpart
  have hbare := hfield .condition condition hcondition
  rw [expression?] at hpart
  split at hpart
  · exact hbare.firstNamed? hpart
  · cases hpart
    exact hbare

end ForClauses

end DefUse
