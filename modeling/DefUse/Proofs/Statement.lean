/-
# `Proofs.Statement` — what a statement holds of the tree it is read off

A statement holds nodes of the syntax tree: its simple statements, conditions and
returned values.  They are parts of the tree that do not overlap
(`Program.held_statement`), if no node has two roles.
-/
import DefUse.Proofs.Tree.Nodes
import DefUse.Statement

namespace DefUse

open DefUse.Tree
open scoped List

section Success

variable {ε α β : Type}

/-- A computation that succeeds has succeeded in its first step. -/
theorem exists_of_bind_eq_ok {x : Except ε α} {f : α → Except ε β} {b : β}
    (h : (x >>= f) = .ok b) : ∃ a, x = .ok a ∧ f a = .ok b := by
  cases x with
  | error e => cases h
  | ok a => exact ⟨a, rfl, h⟩

theorem exists_bind_iff {x : Except ε α} {f : α → Except ε β} :
    (∃ b, (x >>= f) = .ok b) ↔ ∃ a, x = .ok a ∧ ∃ b, f a = .ok b := by
  constructor
  · rintro ⟨b, h⟩
    obtain ⟨a, ha, hb⟩ := exists_of_bind_eq_ok h
    exact ⟨a, ha, b, hb⟩
  · rintro ⟨a, rfl, b, hb⟩
    exact ⟨b, hb⟩

/-- A list of computations succeeds if each of them does. -/
theorem exists_mapM_iff {f : α → Except ε β} {xs : List α} :
    (∃ ys, xs.mapM f = .ok ys) ↔ ∀ x ∈ xs, ∃ y, f x = .ok y := by
  induction xs with
  | nil => simp [pure, Except.pure]
  | cons x rest ih =>
      rw [List.mapM_cons, exists_bind_iff, List.forall_mem_cons, ← ih]
      constructor
      · rintro ⟨y, hy, h⟩
        obtain ⟨ys, hys, -⟩ := exists_bind_iff.mp h
        exact ⟨⟨y, hy⟩, ys, hys⟩
      · rintro ⟨⟨y, hy⟩, ys, hys⟩
        exact ⟨y, hy, exists_bind_iff.mpr ⟨ys, hys, _, rfl⟩⟩

/-- What comes out of a list of computations was computed by one of them. -/
theorem exists_of_mem_mapM {f : α → Except ε β} {xs : List α} {ys : List β}
    (h : xs.mapM f = .ok ys) {y : β} (hy : y ∈ ys) : ∃ x ∈ xs, f x = .ok y := by
  induction xs generalizing ys with
  | nil =>
      cases h
      cases hy
  | cons x rest ih =>
      rw [List.mapM_cons] at h
      obtain ⟨first, hfirst, h⟩ := exists_of_bind_eq_ok h
      obtain ⟨others, hothers, h⟩ := exists_of_bind_eq_ok h
      cases h
      rcases List.mem_cons.mp hy with rfl | hy
      · exact ⟨x, List.mem_cons_self, hfirst⟩
      · obtain ⟨found, hfound, hok⟩ := ih hothers hy
        exact ⟨found, List.mem_cons_of_mem _ hfound, hok⟩

end Success

namespace Statement

/-- The nodes that a statement holds. -/
def held : Statement → List Node
  | skip | jump _ => []
  | simple node => [node]
  | seq first second => first.held ++ second.held
  | ifElse condition thenArm elseArm => condition :: (thenArm.held ++ elseArm.held)
  | whileLoop condition body | doLoop condition body => condition :: body.held
  | forLoop initializer condition increment body =>
    initializer.toList ++ (condition.toList ++ (increment.toList ++ body.held))
  | ret value => value.toList

theorem conditionOf_eq_ok {node condition : Node} (h : conditionOf node = .ok condition) :
    node.field? .condition = some condition := by
  rw [conditionOf] at h
  split at h
  · rename_i found hfound
    cases h
    exact hfound
  · cases h

theorem ofJump_eq_ok {inLoop : Bool} {jump : LoopJump} {node : Node} {statement : Statement}
    (h : ofJump inLoop jump node = .ok statement) : statement = .jump jump ∧ inLoop = true := by
  rw [ofJump] at h
  split at h
  · cases h
  · split at h
    · rename_i hloop
      cases h
      exact ⟨rfl, hloop⟩
    · cases h

theorem flatMap_toList (part : Option Node) :
    part.toList.flatMap Node.nodes = Node.nodesOf? part := by
  cases part with
  | none => rfl
  | some node => exact List.flatMap_singleton _ _

theorem nodesOf?_expression?_sublist (part : Option Node) :
    Node.nodesOf? (part.bind ForClauses.expression?) <+ Node.nodesOf? part := by
  cases part with
  | none => exact List.Sublist.refl _
  | some node =>
      show Node.nodesOf? (ForClauses.expression? node) <+ node.nodes
      rw [ForClauses.expression?]
      split
      · exact (Node.nodesOf?_find?_sublist Node.isContent node.children).trans
          node.nodesAll_sublist
      · exact List.Sublist.refl _

/-- A condition, and what is held in other roles. -/
theorem subperm_condition {site : Site} {children : List Node} {condition : Node}
    (hroles : ∀ child ∈ children, child.site.SingleRole)
    (hcondition : conditionOf (.mk site children) = .ok condition) {rest : List Node}
    (fields : List Field) (hnodup : (.condition :: fields).Nodup)
    (hrest : rest.flatMap Node.nodes <+~
      fields.flatMap fun field => Node.nodesOf? (children.find? (Node.carries field))) :
    (condition :: rest).flatMap Node.nodes <+~ (Node.mk site children).nodes := by
  have hfind : children.find? (Node.carries .condition) = some condition :=
    conditionOf_eq_ok hcondition
  have hpart : Node.nodesOf? (children.find? (Node.carries .condition)) = condition.nodes := by
    rw [hfind]
    rfl
  have hparts := Node.subperm_fields children hroles _ hnodup
  rw [List.flatMap_cons, hpart] at hparts
  rw [List.flatMap_cons]
  refine ((List.subperm_append_left _).mpr hrest).trans (hparts.trans ?_)
  exact (Node.nodesAll_sublist (.mk site children)).subperm

mutual

/-- A statement holds parts of its node that do not overlap. -/
theorem held_ofNode (inLoop : Bool) : ∀ (node : Node) (statement : Statement),
    (∀ other ∈ Node.nodesAll node.children, other.site.SingleRole) →
    ofNode inLoop node = .ok statement → statement.held.flatMap Node.nodes <+~ node.nodes
  | .mk site children, statement, hroles, h => by
      have hchildren : ∀ child ∈ children, child.site.SingleRole := fun child hchild =>
        hroles child ((Node.sublist_of_mem hchild).subset child.mem_nodes_self)
      have hbelow : Node.nodesAll children <+~ (Node.mk site children).nodes :=
        (Node.nodesAll_sublist (.mk site children)).subperm
      rw [ofNode] at h
      split at h
      -- simple statements
      · cases h
        rw [held, List.flatMap_singleton]
      · cases h
        rw [held, List.flatMap_singleton]
      · cases h
        rw [held, List.flatMap_singleton]
      · exact (held_ofNamed inLoop children statement hroles h).trans hbelow
      -- what does nothing
      · cases h
        exact List.nil_subperm
      · cases h
        exact List.nil_subperm
      · cases h
        exact List.nil_subperm
      -- `if`
      · obtain ⟨condition, hcondition, h⟩ := exists_of_bind_eq_ok h
        obtain ⟨thenArm, hthen, h⟩ := exists_of_bind_eq_ok h
        obtain ⟨elseArm, helse, h⟩ := exists_of_bind_eq_ok h
        cases h
        refine subperm_condition hchildren hcondition [.consequence, .alternative]
          (by decide) ?_
        rw [List.flatMap_append, List.flatMap_cons, List.flatMap_singleton]
        exact (held_ofField inLoop .consequence children thenArm hroles hthen).append
          (held_ofElse inLoop children elseArm hroles helse)
      -- the loops
      · obtain ⟨condition, hcondition, h⟩ := exists_of_bind_eq_ok h
        obtain ⟨body, hbody, h⟩ := exists_of_bind_eq_ok h
        cases h
        refine subperm_condition hchildren hcondition [.body] (by decide) ?_
        rw [List.flatMap_singleton]
        exact held_ofField true .body children body hroles hbody
      · obtain ⟨condition, hcondition, h⟩ := exists_of_bind_eq_ok h
        obtain ⟨body, hbody, h⟩ := exists_of_bind_eq_ok h
        cases h
        refine subperm_condition hchildren hcondition [.body] (by decide) ?_
        rw [List.flatMap_singleton]
        exact held_ofField true .body children body hroles hbody
      · obtain ⟨body, hbody, h⟩ := exists_of_bind_eq_ok h
        cases h
        have hparts := Node.subperm_fields children hchildren
          [.initializer, .condition, .increment, .body] (by decide)
        simp only [List.flatMap_cons, List.flatMap_nil, List.append_nil] at hparts
        refine List.Subperm.trans ?_ (hparts.trans hbelow)
        simp only [held, List.flatMap_append, flatMap_toList]
        refine (Node.nodesOf?_filter_sublist _ _).subperm.append (List.Subperm.append ?_
          ((Node.nodesOf?_filter_sublist _ _).subperm.append
            (held_ofField true .body children body hroles hbody)))
        exact ((nodesOf?_expression?_sublist _).trans (Node.nodesOf?_filter_sublist _ _)).subperm
      -- jumps and `return`
      · obtain ⟨rfl, -⟩ := ofJump_eq_ok h
        exact List.nil_subperm
      · obtain ⟨rfl, -⟩ := ofJump_eq_ok h
        exact List.nil_subperm
      · cases h
        rw [held, flatMap_toList]
        exact (Node.nodesOf?_find?_sublist Node.isContent children).subperm.trans hbelow
      · cases h

theorem held_ofNamed (inLoop : Bool) : ∀ (nodes : List Node) (statement : Statement),
    (∀ other ∈ Node.nodesAll nodes, other.site.SingleRole) →
    ofNamed inLoop nodes = .ok statement → statement.held.flatMap Node.nodes <+~ Node.nodesAll nodes
  | [], statement, _, h => by
      cases h
      exact List.nil_subperm
  | child :: rest, statement, hroles, h => by
      rw [ofNamed] at h
      rw [Node.nodesAll] at hroles ⊢
      have hrest : ∀ other ∈ Node.nodesAll rest, other.site.SingleRole :=
        fun other hother => hroles other (List.mem_append_right _ hother)
      split at h
      · obtain ⟨first, hfirst, h⟩ := exists_of_bind_eq_ok h
        obtain ⟨others, hothers, h⟩ := exists_of_bind_eq_ok h
        cases h
        rw [held, List.flatMap_append]
        refine (held_ofNode inLoop child first (fun other hother => ?_) hfirst).append
          (held_ofNamed inLoop rest others hrest hothers)
        exact hroles other (List.mem_append_left _ (child.nodesAll_sublist.subset hother))
      · exact (held_ofNamed inLoop rest statement hrest h).trans
          (List.sublist_append_right _ _).subperm

theorem held_ofField (inLoop : Bool) (field : Field) : ∀ (nodes : List Node)
    (statement : Statement), (∀ other ∈ Node.nodesAll nodes, other.site.SingleRole) →
    ofField inLoop field nodes = .ok statement →
    statement.held.flatMap Node.nodes <+~ Node.nodesOf? (nodes.find? (Node.carries field))
  | [], statement, _, h => by
      cases h
      exact List.nil_subperm
  | child :: rest, statement, hroles, h => by
      rw [ofField] at h
      rw [Node.nodesAll] at hroles
      rw [List.find?_cons]
      cases hcarries : child.carries field with
      | true =>
          rw [hcarries] at h
          refine held_ofNode inLoop child statement (fun other hother => ?_) h
          exact hroles other (List.mem_append_left _ (child.nodesAll_sublist.subset hother))
      | false =>
          rw [hcarries] at h
          exact held_ofField inLoop field rest statement
            (fun other hother => hroles other (List.mem_append_right _ hother)) h

theorem held_ofElse (inLoop : Bool) : ∀ (nodes : List Node) (statement : Statement),
    (∀ other ∈ Node.nodesAll nodes, other.site.SingleRole) →
    ofElse inLoop nodes = .ok statement →
    statement.held.flatMap Node.nodes <+~ Node.nodesOf? (nodes.find? (Node.carries .alternative))
  | [], statement, _, h => by
      cases h
      exact List.nil_subperm
  | child :: rest, statement, hroles, h => by
      rw [ofElse] at h
      rw [Node.nodesAll] at hroles
      have hchild : ∀ other ∈ Node.nodesAll child.children, other.site.SingleRole :=
        fun other hother =>
          hroles other (List.mem_append_left _ (child.nodesAll_sublist.subset hother))
      rw [List.find?_cons]
      cases hcarries : child.carries .alternative with
      | true =>
          rw [hcarries] at h
          simp only [if_true] at h
          split at h
          · exact held_ofClause inLoop child statement hchild h
          · exact held_ofNode inLoop child statement hchild h
      | false =>
          rw [hcarries] at h
          exact held_ofElse inLoop rest statement
            (fun other hother => hroles other (List.mem_append_right _ hother)) h

theorem held_ofClause (inLoop : Bool) : ∀ (node : Node) (statement : Statement),
    (∀ other ∈ Node.nodesAll node.children, other.site.SingleRole) →
    ofClause inLoop node = .ok statement → statement.held.flatMap Node.nodes <+~ node.nodes
  | .mk site children, statement, hroles, h => by
      have hbelow : Node.nodesAll children <+~ (Node.mk site children).nodes :=
        (Node.nodesAll_sublist (.mk site children)).subperm
      exact (held_ofFirst inLoop children statement hroles h).trans hbelow

theorem held_ofFirst (inLoop : Bool) : ∀ (nodes : List Node) (statement : Statement),
    (∀ other ∈ Node.nodesAll nodes, other.site.SingleRole) →
    ofFirst inLoop nodes = .ok statement → statement.held.flatMap Node.nodes <+~ Node.nodesAll nodes
  | [], statement, _, h => by
      cases h
      exact List.nil_subperm
  | child :: rest, statement, hroles, h => by
      rw [ofFirst] at h
      rw [Node.nodesAll] at hroles ⊢
      split at h
      · refine (held_ofNode inLoop child statement (fun other hother => ?_) h).trans
          (List.sublist_append_left _ _).subperm
        exact hroles other (List.mem_append_left _ (child.nodesAll_sublist.subset hother))
      · exact (held_ofFirst inLoop rest statement
          (fun other hother => hroles other (List.mem_append_right _ hother)) h).trans
          (List.sublist_append_right _ _).subperm

end

end Statement

namespace Program

/-- No node has two roles below its parent. -/
def SingleRoles (program : Program) : Prop :=
  ∀ node ∈ Node.nodesAll program.root.children, node.site.SingleRole

instance (program : Program) : Decidable program.SingleRoles :=
  inferInstanceAs (Decidable (∀ node ∈ Node.nodesAll program.root.children, node.site.SingleRole))

theorem nodup_ids (program : Program) :
    ((Node.nodesAll program.root.children).map fun node => node.site.id).Nodup := by
  have hids := program.distinct
  rw [Node.ids, Node.sites_eq, List.map_map] at hids
  exact hids.sublist (program.root.nodesAll_sublist.map _)

theorem nodup_sites (program : Program) :
    ((Node.nodesAll program.root.children).map Node.site).Nodup := by
  refine List.Nodup.of_map Site.id ?_
  rw [List.map_map]
  exact program.nodup_ids

/-- The entry is the whole source, or the body of the function it consists of. -/
theorem entry_cases (program : Program) :
    program.entry = ⟨program.root, none⟩ ∨
      ∃ only ∈ program.root.children, ∃ body, only.field? .body = some body ∧
        program.entry = ⟨body, some only⟩ := by
  rw [entry]
  split
  · rename_i only honly
    split
    · split
      · rename_i body hbody
        have hmem : only ∈ program.root.namedChildren.filter fun node => !node.isComment :=
          honly ▸ List.mem_singleton.mpr rfl
        exact .inr ⟨only, List.mem_of_mem_filter (List.mem_of_mem_filter hmem), body, hbody, rfl⟩
      · exact .inl rfl
    · exact .inl rfl
  · exact .inl rfl

theorem nodes_entry_sublist (program : Program) :
    Node.nodesAll program.entry.body.children <+ Node.nodesAll program.root.children := by
  rcases program.entry_cases with h | ⟨only, honly, body, hbody, h⟩
  · rw [h]
  · rw [h]
    have hbelow : body ∈ only.children := List.mem_of_find?_eq_some hbody
    exact body.nodesAll_sublist.trans ((Node.sublist_of_mem hbelow).trans
      (only.nodesAll_sublist.trans (Node.sublist_of_mem honly)))

/-- The statements of a program hold parts of its tree that do not overlap. -/
theorem held_statement {program : Program} {statement : Statement} (hroles : program.SingleRoles)
    (h : program.statement = .ok statement) :
    statement.held.flatMap Node.nodes <+~ Node.nodesAll program.root.children := by
  have hentry := program.nodes_entry_sublist
  refine (Statement.held_ofNamed false _ statement ?_ h).trans hentry.subperm
  exact fun node hnode => hroles node (hentry.subset hnode)

end Program

end DefUse
