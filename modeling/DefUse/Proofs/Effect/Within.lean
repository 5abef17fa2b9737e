/-
# `Proofs.Effect.Within` — reads and writes of a statement are nodes of it

The variables that an expression reads are nodes of it, each read once, and they are
variable occurrences (`reads_sublist`).  The effects of a statement read nodes of the
statement, none twice, if no node has two roles: the value on the right of an
assignment and its target are different parts then.  What they write is written by a
node of the statement (`effects_within`).
-/
import DefUse.Effect.Basic
import DefUse.Proofs.Statement

namespace DefUse

open DefUse.Tree
open scoped List

/-- Is it an occurrence of a variable? -/
def Tree.Site.isVariable (site : Site) : Bool :=
  site.kind = .identifier || site.kind = .shorthandIdentifier

/-! ## Reads -/

mutual

/-- An expression reads variable occurrences in it, from left to right. -/
theorem reads_sublist : ∀ (node : Node) (sites : List Site), reads node = .ok sites →
    sites <+ node.sites.filter Site.isVariable
  | .mk site children, sites, h => by
      have hbelow : (Node.sitesAll children).filter Site.isVariable <+
          (Node.mk site children).sites.filter Site.isVariable := by
        rw [Node.sites]
        exact (List.sublist_cons_self _ _).filter _
      rw [reads] at h
      split at h
      · rename_i hkind
        cases h
        rw [Node.sites, List.filter_cons_of_pos (by simp [Site.isVariable, hkind])]
        exact List.singleton_sublist.mpr List.mem_cons_self
      · rename_i hkind
        cases h
        rw [Node.sites, List.filter_cons_of_pos (by simp [Site.isVariable, hkind])]
        exact List.singleton_sublist.mpr List.mem_cons_self
      all_goals first
        | cases h
        | exact (readsField_sublist _ children sites h).trans hbelow
        | exact (readsNamed_sublist children sites h).trans hbelow

theorem readsField_sublist (field : Field) : ∀ (children : List Node) (sites : List Site),
    readsField field children = .ok sites →
    sites <+ (Node.sitesAll children).filter Site.isVariable
  | [], sites, h => by
      cases h
      exact List.nil_sublist _
  | child :: rest, sites, h => by
      rw [readsField] at h
      rw [Node.sitesAll, List.filter_append]
      split at h
      · exact (reads_sublist child sites h).trans (List.sublist_append_left _ _)
      · exact (readsField_sublist field rest sites h).trans (List.sublist_append_right _ _)

theorem readsNamed_sublist : ∀ (children : List Node) (sites : List Site),
    readsNamed children = .ok sites →
    sites <+ (Node.sitesAll children).filter Site.isVariable
  | [], sites, h => by
      cases h
      exact List.nil_sublist _
  | child :: rest, sites, h => by
      rw [readsNamed] at h
      rw [Node.sitesAll, List.filter_append]
      split at h
      · split at h
        · cases h
        · rename_i first hfirst
          split at h
          · cases h
          · rename_i others hothers
            cases h
            exact (reads_sublist child first hfirst).append
              (readsNamed_sublist rest others hothers)
      · exact (readsNamed_sublist rest sites h).trans (List.sublist_append_right _ _)

end

theorem reads_sublist_nodes {node : Node} {sites : List Site} (h : reads node = .ok sites) :
    sites <+ node.nodes.map Node.site := by
  rw [← Node.sites_eq]
  exact (reads_sublist node sites h).trans List.filter_sublist

theorem readsOf?_sublist {node : Option Node} {sites : List Site} (h : readsOf? node = .ok sites) :
    sites <+ (Node.nodesOf? node).map Node.site := by
  cases node with
  | none =>
      cases h
      exact List.nil_sublist _
  | some node => exact reads_sublist_nodes h

/-! ## Effects -/

/-- The effects read some of the nodes, none more often than it is there, and what they write is
written by one of the nodes. -/
structure Effect.Within (steps : List Effect) (nodes : List Node) : Prop where
  reads : steps.flatMap Effect.reads <+~ nodes.map Node.site
  writes : ∀ step ∈ steps, ∀ assignment, step.write = some assignment →
    ∃ node ∈ nodes, Assignment.ofNode? node = some assignment

namespace Effect

variable {steps : List Effect} {nodes larger : List Node}

theorem within_nil (nodes : List Node) : Within [] nodes :=
  ⟨List.nil_subperm, fun _ h => nomatch h⟩

theorem Within.mono (h : Within steps nodes) (hle : nodes <+ larger) : Within steps larger where
  reads := h.reads.trans (hle.map _).subperm
  writes := by
    intro step hstep assignment hwrite
    obtain ⟨node, hnode, hmakes⟩ := h.writes step hstep assignment hwrite
    exact ⟨node, hle.subset hnode, hmakes⟩

theorem Within.append {more : List Effect} {others : List Node} (h : Within steps nodes)
    (h' : Within more others) : Within (steps ++ more) (nodes ++ others) where
  reads := by
    rw [List.flatMap_append, List.map_append]
    exact h.reads.append h'.reads
  writes := by
    intro step hstep assignment hwrite
    rcases List.mem_append.mp hstep with hstep | hstep
    · obtain ⟨node, hnode, hmakes⟩ := h.writes step hstep assignment hwrite
      exact ⟨node, List.mem_append_left _ hnode, hmakes⟩
    · obtain ⟨node, hnode, hmakes⟩ := h'.writes step hstep assignment hwrite
      exact ⟨node, List.mem_append_right _ hnode, hmakes⟩

/-- One effect that writes what its node writes, or nothing. -/
theorem within_singleton {reads : List Site} {write : Option Assignment} {node : Node}
    (hreads : reads <+~ node.nodes.map Node.site)
    (hwrite : ∀ assignment, write = some assignment → Assignment.ofNode? node = some assignment) :
    Within [⟨reads, write⟩] node.nodes where
  reads := by
    rw [List.flatMap_singleton]
    exact hreads
  writes := by
    intro step hstep assignment heq
    cases List.mem_singleton.mp hstep
    exact ⟨node, node.mem_nodes_self, hwrite assignment heq⟩

/-- A computation of one effect, made a list. -/
theorem singleton_eq_ok {result : Except AnalysisError Effect}
    (h : result.map List.singleton = .ok steps) : ∃ step, result = .ok step ∧ steps = [step] := by
  cases result with
  | error e => cases h
  | ok step =>
      cases h
      exact ⟨step, rfl, rfl⟩

theorem ofReads_within {node : Node} {step : Effect} (h : ofReads node = .ok step) :
    Within [step] node.nodes := by
  obtain ⟨sites, hsites, h⟩ := exists_of_bind_eq_ok h
  cases h
  refine within_singleton (reads_sublist_nodes hsites).subperm ?_
  intro _ heq
  cases heq

/-- The nodes of two parts in different roles. -/
theorem subperm_two_fields {node : Node} (hroles : ∀ child ∈ node.children, child.site.SingleRole)
    {field other : Field} (hne : field ≠ other) {first second : List Site}
    (hfirst : first <+ (Node.nodesOf? (node.field? field)).map Node.site)
    (hsecond : second <+ (Node.nodesOf? (node.field? other)).map Node.site) :
    first ++ second <+~ node.nodes.map Node.site := by
  have hparts := Node.subperm_fields node.children hroles [field, other] (by simp [hne])
  rw [List.flatMap_cons, List.flatMap_singleton] at hparts
  refine (hfirst.append hsecond).subperm.trans ?_
  rw [← List.map_append]
  exact Node.subperm_map (hparts.trans node.nodesAll_sublist.subperm) Node.site

theorem ofAssignment_within {node : Node} {step : Effect}
    (hroles : ∀ child ∈ node.children, child.site.SingleRole) (h : ofAssignment node = .ok step) :
    Within [step] node.nodes := by
  obtain ⟨right, hright, h⟩ := exists_of_bind_eq_ok h
  obtain ⟨left, hleft, h⟩ := exists_of_bind_eq_ok h
  cases h
  have htarget : left <+ (Node.nodesOf? (node.field? .left)).map Node.site := by
    rw [readsOfTarget] at hleft
    cases hfield : node.field? .left with
    | none =>
        rw [hfield] at hleft
        cases hleft
        exact List.nil_sublist _
    | some target =>
        rw [hfield] at hleft
        simp only [Option.map_some] at hleft
        split at hleft
        · cases hleft
          exact List.nil_sublist _
        · split at hleft
          · cases hleft
          · exact (reads_sublist_nodes hleft).trans (target.unparenthesized_sublist.map _)
  exact within_singleton (subperm_two_fields hroles (by decide) (readsOf?_sublist hright) htarget)
    fun _ heq => heq

theorem ofCompound_within {node : Node} {step : Effect}
    (hroles : ∀ child ∈ node.children, child.site.SingleRole) (h : ofCompound node = .ok step) :
    Within [step] node.nodes := by
  obtain ⟨right, hright, h⟩ := exists_of_bind_eq_ok h
  obtain ⟨left, hleft, h⟩ := exists_of_bind_eq_ok h
  cases h
  exact within_singleton (subperm_two_fields hroles (by decide) (readsOf?_sublist hright)
    (readsOf?_sublist hleft)) fun _ heq => heq

/-- What one part reads. -/
theorem subperm_field {node : Node} {field : Field} {sites : List Site}
    (h : readsOf? (node.field? field) = .ok sites) : sites <+~ node.nodes.map Node.site := by
  have hpart := Node.nodesOf?_find?_sublist (Node.carries field) node.children
  exact ((readsOf?_sublist h).trans ((hpart.trans node.nodesAll_sublist).map _)).subperm

theorem ofUpdate_within {node : Node} {step : Effect} (h : ofUpdate node = .ok step) :
    Within [step] node.nodes := by
  obtain ⟨sites, hsites, h⟩ := exists_of_bind_eq_ok h
  cases h
  exact within_singleton (subperm_field hsites) fun _ heq => heq

theorem ofDeclarator_within {node : Node} {step : Effect} (h : ofDeclarator node = .ok step) :
    Within [step] node.nodes := by
  rw [ofDeclarator] at h
  split at h
  · cases h
  · obtain ⟨sites, hsites, h⟩ := exists_of_bind_eq_ok h
    cases h
    exact within_singleton (subperm_field hsites) fun _ heq => heq

end Effect

mutual

/-- The effects of an expression in statement position are within it. -/
theorem expressionEffects_within : ∀ (node : Node) (steps : List Effect),
    (∀ other ∈ Node.nodesAll node.children, other.site.SingleRole) →
    expressionEffects node = .ok steps → Effect.Within steps node.nodes
  | .mk site children, steps, hroles, h => by
      have hchildren : ∀ child ∈ children, child.site.SingleRole := fun child hchild =>
        hroles child ((Node.sublist_of_mem hchild).subset child.mem_nodes_self)
      have hbelow : Node.nodesAll children <+ (Node.mk site children).nodes :=
        Node.nodesAll_sublist (.mk site children)
      rw [expressionEffects] at h
      split at h
      · cases hfirst : expressionEffectsFirst children with
        | none =>
            rw [hfirst] at h
            obtain ⟨step, hstep, rfl⟩ := Effect.singleton_eq_ok h
            exact Effect.ofReads_within hstep
        | some result =>
            rw [hfirst] at h
            cases h
            exact (expressionEffectsFirst_within children steps hroles hfirst).mono hbelow
      · exact (expressionEffectsNamed_within children steps hroles h).mono hbelow
      · obtain ⟨step, hstep, rfl⟩ := Effect.singleton_eq_ok h
        exact Effect.ofAssignment_within hchildren hstep
      · obtain ⟨step, hstep, rfl⟩ := Effect.singleton_eq_ok h
        exact Effect.ofCompound_within hchildren hstep
      · obtain ⟨step, hstep, rfl⟩ := Effect.singleton_eq_ok h
        exact Effect.ofUpdate_within hstep
      · obtain ⟨step, hstep, rfl⟩ := Effect.singleton_eq_ok h
        exact Effect.ofReads_within hstep

theorem expressionEffectsFirst_within : ∀ (children : List Node) (steps : List Effect),
    (∀ other ∈ Node.nodesAll children, other.site.SingleRole) →
    expressionEffectsFirst children = some (.ok steps) →
    Effect.Within steps (Node.nodesAll children)
  | [], _, _, h => nomatch h
  | child :: rest, steps, hroles, h => by
      rw [expressionEffectsFirst] at h
      rw [Node.nodesAll] at hroles ⊢
      split at h
      · refine (expressionEffects_within child steps (fun other hother => ?_)
          (Option.some.inj h)).mono (List.sublist_append_left _ _)
        exact hroles other (List.mem_append_left _ (child.nodesAll_sublist.subset hother))
      · exact (expressionEffectsFirst_within rest steps
          (fun other hother => hroles other (List.mem_append_right _ hother)) h).mono
          (List.sublist_append_right _ _)

theorem expressionEffectsNamed_within : ∀ (children : List Node) (steps : List Effect),
    (∀ other ∈ Node.nodesAll children, other.site.SingleRole) →
    expressionEffectsNamed children = .ok steps → Effect.Within steps (Node.nodesAll children)
  | [], steps, _, h => by
      cases h
      exact Effect.within_nil _
  | child :: rest, steps, hroles, h => by
      rw [expressionEffectsNamed] at h
      rw [Node.nodesAll] at hroles ⊢
      have hrest : ∀ other ∈ Node.nodesAll rest, other.site.SingleRole :=
        fun other hother => hroles other (List.mem_append_right _ hother)
      split at h
      · split at h
        · cases h
        · rename_i first hfirst
          split at h
          · cases h
          · rename_i others hothers
            cases h
            refine (expressionEffects_within child first (fun other hother => ?_) hfirst).append
              (expressionEffectsNamed_within rest others hrest hothers)
            exact hroles other (List.mem_append_left _ (child.nodesAll_sublist.subset hother))
      · exact (expressionEffectsNamed_within rest steps hrest h).mono
          (List.sublist_append_right _ _)

end

/-- The effects of declarators are within them. -/
theorem Effect.within_declarators {nodes : List Node} {steps : List Effect}
    (h : nodes.mapM Effect.ofDeclarator = .ok steps) :
    Effect.Within steps (nodes.flatMap Node.nodes) := by
  induction nodes generalizing steps with
  | nil =>
      cases h
      exact Effect.within_nil _
  | cons node rest ih =>
      rw [List.mapM_cons] at h
      obtain ⟨first, hfirst, h⟩ := exists_of_bind_eq_ok h
      obtain ⟨others, hothers, h⟩ := exists_of_bind_eq_ok h
      cases h
      exact (Effect.ofDeclarator_within hfirst).append (ih hothers)

theorem flatMap_declarators_sublist (statement : Node) :
    (declarators statement).flatMap Node.nodes <+ statement.nodes := by
  have hsublist : declarators statement <+ statement.children :=
    List.filter_sublist.trans List.filter_sublist
  refine List.Sublist.trans ?_ statement.nodesAll_sublist
  rw [Node.nodesAll_eq]
  exact hsublist.flatMap Node.nodes

/-- The effects of a simple statement are within it. -/
theorem effects_within {statement : Node} {steps : List Effect}
    (hroles : ∀ other ∈ Node.nodesAll statement.children, other.site.SingleRole)
    (h : effects statement = .ok steps) : Effect.Within steps statement.nodes := by
  rw [effects] at h
  split at h
  · exact (Effect.within_declarators h).mono (flatMap_declarators_sublist statement)
  · exact (Effect.within_declarators h).mono (flatMap_declarators_sublist statement)
  · split at h
    · cases h
      exact Effect.within_nil _
    · rename_i expression hexpression
      have hinner : expression.nodes <+ Node.nodesAll statement.children :=
        Node.sublist_of_mem (List.mem_of_find?_eq_some hexpression)
      refine (expressionEffects_within expression steps (fun other hother => ?_) h).mono
        (hinner.trans statement.nodesAll_sublist)
      exact hroles other (hinner.subset (expression.nodesAll_sublist.subset hother))
  · cases h
    exact Effect.within_nil _
  · exact expressionEffects_within statement steps hroles h

end DefUse
