/-
# `Proofs.Tree.Nodes` — parts of a tree do not overlap

A tree has a list of all its nodes; in a numbered tree no two of them have one number,
so that a node is known by its site (`Node.eq_of_site`).  The parts that a statement or
an expression is taken apart into are nodes of this list, and different parts do not
overlap.  This is said with `<+~`: the nodes of all parts are, in some order, among the
nodes of the whole, none more often than there.

Parts are found by their role.  If no node has two roles, parts with different roles
are different nodes (`Node.subperm_fields`).
-/
import Mathlib.Data.List.Flatten
import Mathlib.Data.List.Nodup
import Mathlib.Data.List.Perm.Subperm
import DefUse.Tree.Node

namespace DefUse.Tree

open scoped List

/-- The site has one role at most. -/
def Site.SingleRole (site : Site) : Prop :=
  ∀ field ∈ site.fields, ∀ other ∈ site.fields, field = other

instance (site : Site) : Decidable site.SingleRole :=
  inferInstanceAs (Decidable (∀ field ∈ site.fields, ∀ other ∈ site.fields, field = other))

namespace Node

mutual

/-- The node and all nodes below it, in pre-order. -/
def nodes : Node → List Node
  | mk site children => mk site children :: nodesAll children

/-- All nodes of several trees. -/
def nodesAll : List Node → List Node
  | [] => []
  | child :: rest => child.nodes ++ nodesAll rest

end

mutual

theorem sites_eq : ∀ node : Node, node.sites = node.nodes.map site
  | mk site children => by
      rw [sites, nodes, List.map_cons, sitesAll_eq children]
      rfl

theorem sitesAll_eq : ∀ nodes : List Node, sitesAll nodes = (nodesAll nodes).map site
  | [] => rfl
  | child :: rest => by
      rw [sitesAll, nodesAll, List.map_append, sites_eq child, sitesAll_eq rest]

end

theorem nodesAll_eq (nodes : List Node) : nodesAll nodes = nodes.flatMap Node.nodes := by
  induction nodes with
  | nil => rfl
  | cons child rest ih => rw [nodesAll, List.flatMap_cons, ih]

theorem mem_nodes_self (node : Node) : node ∈ node.nodes := by
  cases node
  exact List.mem_cons_self

theorem nodesAll_sublist (node : Node) : nodesAll node.children <+ node.nodes := by
  cases node
  exact List.sublist_cons_self _ _

theorem sublist_flatMap_nodes (nodes : List Node) : nodes <+ nodes.flatMap Node.nodes := by
  induction nodes with
  | nil => exact List.Sublist.refl _
  | cons node rest ih =>
      rw [List.flatMap_cons]
      exact (List.singleton_sublist.mpr node.mem_nodes_self).append ih

/-- Nodes of a numbered tree with one site are one node. -/
theorem eq_of_site {root node other : Node} (hdistinct : root.ids.Nodup) (hnode : node ∈ root.nodes)
    (hother : other ∈ root.nodes) (h : node.site.id = other.site.id) : node = other := by
  rw [ids, sites_eq, List.map_map] at hdistinct
  exact List.inj_on_of_nodup_map hdistinct hnode hother h

mutual

/-- What lies below a node of the tree lies in the tree. -/
theorem sublist_of_mem_nodes : ∀ {root node : Node}, node ∈ root.nodes → node.nodes <+ root.nodes
  | mk site children, node, h => by
      rcases List.mem_cons.mp h with rfl | h
      · exact List.Sublist.refl _
      · exact (sublist_of_mem_nodesAll h).trans (nodesAll_sublist (mk site children))

theorem sublist_of_mem_nodesAll : ∀ {nodes : List Node} {node : Node}, node ∈ nodesAll nodes →
    node.nodes <+ nodesAll nodes
  | [], _, h => nomatch h
  | child :: rest, node, h => by
      rw [nodesAll] at h ⊢
      rcases List.mem_append.mp h with h | h
      · exact (sublist_of_mem_nodes h).trans (List.sublist_append_left _ _)
      · exact (sublist_of_mem_nodesAll h).trans (List.sublist_append_right _ _)

end

/-! ## Parts -/

theorem subperm_map {α β : Type} {xs ys : List α} (h : xs <+~ ys) (f : α → β) :
    xs.map f <+~ ys.map f := by
  obtain ⟨zs, hperm, hsublist⟩ := h
  exact ⟨zs.map f, hperm.map f, hsublist.map f⟩

theorem subperm_flatMap {α β : Type} {xs ys : List α} (h : xs <+~ ys) (f : α → List β) :
    xs.flatMap f <+~ ys.flatMap f := by
  obtain ⟨zs, hperm, hsublist⟩ := h
  exact (hperm.symm.flatMap_right f).subperm.trans (hsublist.flatMap f).subperm

theorem sublist_of_mem {child : Node} {children : List Node} (h : child ∈ children) :
    child.nodes <+ nodesAll children := by
  rw [nodesAll_eq, ← List.flatMap_singleton nodes child]
  exact (List.singleton_sublist.mpr h).flatMap nodes

theorem mem_nodesAll {child : Node} {children : List Node} (h : child ∈ children) :
    child ∈ nodesAll children :=
  (sublist_of_mem h).subset child.mem_nodes_self

theorem nodes_subset {node child : Node} (h : child ∈ node.children) : child.nodes ⊆ node.nodes :=
  ((sublist_of_mem h).trans node.nodesAll_sublist).subset

theorem mem_nodes {node child : Node} (h : child ∈ node.children) : child ∈ node.nodes :=
  nodes_subset h child.mem_nodes_self

/-- The nodes of a part that may be absent. -/
def nodesOf? : Option Node → List Node
  | none => []
  | some node => node.nodes

theorem nodesOf?_filter_sublist (part : Option Node) (p : Node → Bool) :
    nodesOf? (part.filter p) <+ nodesOf? part := by
  cases part with
  | none => exact List.Sublist.refl _
  | some node =>
      rw [Option.filter]
      split
      · exact List.Sublist.refl _
      · exact List.nil_sublist _

theorem nodesOf?_find?_sublist (p : Node → Bool) (children : List Node) :
    nodesOf? (children.find? p) <+ nodesAll children := by
  cases h : children.find? p with
  | none => exact List.nil_sublist _
  | some child => exact sublist_of_mem (List.mem_of_find?_eq_some h)

mutual

theorem unparenthesized_sublist : ∀ node : Node, node.unparenthesized.nodes <+ node.nodes
  | mk site children => by
      rw [unparenthesized]
      split
      · cases h : unparenthesizedFirst children with
        | none => exact List.Sublist.refl _
        | some inner =>
            have hinner := unparenthesizedFirst_sublist children inner h
            exact hinner.trans (nodesAll_sublist (mk site children))
      · exact List.Sublist.refl _

theorem unparenthesizedFirst_sublist : ∀ (children : List Node) (inner : Node),
    unparenthesizedFirst children = some inner → inner.nodes <+ nodesAll children
  | [], _, h => nomatch h
  | child :: rest, inner, h => by
      rw [unparenthesizedFirst] at h
      rw [nodesAll]
      split at h
      · cases h
        exact (unparenthesized_sublist child).trans (List.sublist_append_left _ _)
      · exact (unparenthesizedFirst_sublist rest inner h).trans (List.sublist_append_right _ _)

end

/-- The nodes of the parts in different roles are among the nodes of all children. -/
theorem subperm_fields : ∀ (children : List Node),
    (∀ child ∈ children, child.site.SingleRole) → ∀ fields : List Field, fields.Nodup →
    fields.flatMap (fun field => nodesOf? (children.find? (carries field))) <+~ nodesAll children
  | [], _, fields, _ => by
      have hnil : ∀ fields : List Field, fields.flatMap (fun field =>
          nodesOf? (([] : List Node).find? (carries field))) = [] := by
        intro fields
        induction fields with
        | nil => rfl
        | cons field rest ih =>
            rw [List.flatMap_cons, ih]
            rfl
      rw [hnil]
      exact List.nil_subperm
  | child :: rest, hroles, fields, hnodup => by
      have ih := subperm_fields rest fun other hother => hroles other (List.mem_cons_of_mem _ hother)
      have hother : ∀ field, child.carries field = false →
          (child :: rest).find? (carries field) = rest.find? (carries field) := by
        intro field hfield
        rw [List.find?_cons, hfield]
      rw [nodesAll]
      by_cases hcarries : ∃ field ∈ fields, child.carries field = true
      · -- the child takes one role, and the rest the others
        obtain ⟨field, hfield, hcarries⟩ := hcarries
        obtain ⟨front, back, rfl⟩ := List.append_of_mem hfield
        have hnodup' := List.nodup_middle.mp hnodup
        obtain ⟨hnot, hothers⟩ := List.nodup_cons.mp hnodup'
        have hrest : ∀ other ∈ front ++ back, nodesOf? ((child :: rest).find? (carries other)) =
            nodesOf? (rest.find? (carries other)) := by
          intro other hmem
          rw [hother other]
          rw [← Bool.not_eq_true]
          intro hcarries'
          have heq : field = other := hroles child List.mem_cons_self field
            (List.contains_iff_mem.mp hcarries) other (List.contains_iff_mem.mp hcarries')
          exact hnot (heq ▸ hmem)
        have hself : nodesOf? ((child :: rest).find? (carries field)) = child.nodes := by
          rw [List.find?_cons, hcarries]
          rfl
        have hperm : (front ++ field :: back).flatMap
            (fun field => nodesOf? ((child :: rest).find? (carries field))) ~
            child.nodes ++ (front ++ back).flatMap
              (fun field => nodesOf? (rest.find? (carries field))) := by
          refine (List.perm_middle.flatMap_right _).trans ?_
          rw [List.flatMap_cons, hself, List.flatMap_congr hrest]
        exact hperm.subperm.trans ((List.subperm_append_left _).mpr (ih _ hothers))
      · have hrest : ∀ field ∈ fields, nodesOf? ((child :: rest).find? (carries field)) =
            nodesOf? (rest.find? (carries field)) := by
          intro field hfield
          rw [hother field]
          rw [← Bool.not_eq_true]
          exact fun h => hcarries ⟨field, hfield, h⟩
        rw [List.flatMap_congr hrest]
        exact (ih fields hnodup).trans (List.sublist_append_right _ _).subperm

end Node

end DefUse.Tree
