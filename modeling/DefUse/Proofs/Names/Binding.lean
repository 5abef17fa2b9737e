/-
# `Proofs.Names.Binding` — what the walk binds

Two facts about the walk with variables in the place of names.  All variables in use
were declared, and those of one spelling are numbered through without gaps
(`Binder.Sound`); every step keeps this.  And a declaration keeps the variable it makes
(`Program.owner?_site`): the sites that the walk meets are different nodes of the tree,
so none is given a variable twice (`Program.nodup_touched`).  The second needs that no
node has two roles, or a declarator's value could be its name as well.
-/
import DefUse.Proofs.Names.Walk
import DefUse.Proofs.Statement

namespace DefUse

open DefUse.Tree
open DefUse.Names
open scoped List

/-- The sites that may get a name in a sequence of steps. -/
def Names.touched (steps : List Step) : List Site :=
  steps.filterMap Step.site?

namespace Binder

variable {program : Program} {binder : Binder}

/-- All variables in use were declared, and those of one spelling are numbered through. -/
structure Sound (program : Program) (binder : Binder) : Prop where
  bound : ∀ frame ∈ binder.scope.frames, ∀ entry ∈ frame, entry.2 ∈ binder.declared
  owned : ∀ entry ∈ binder.owners, entry.2 ∈ binder.declared
  counts : ∀ var ∈ binder.declared,
    0 < var.count ∧ var.count ≤ binder.count program (program.text var.site)
  apart : ∀ var ∈ binder.declared, ∀ other ∈ binder.declared,
    program.text var.site = program.text other.site → var.count = other.count → var = other
  filled : ∀ spelling count, 0 < count → count ≤ binder.count program spelling →
    ∃ var ∈ binder.declared, program.text var.site = spelling ∧ var.count = count

theorem sound_start : Sound program start where
  bound := by
    intro frame hframe entry hentry
    rw [List.mem_singleton.mp hframe] at hentry
    cases hentry
  owned := fun _ h => absurd h List.not_mem_nil
  counts := fun _ h => absurd h List.not_mem_nil
  apart := fun _ h => absurd h List.not_mem_nil
  filled := fun _ _ hpos hle => absurd hpos (Nat.not_lt.mpr hle)

theorem mem_of_lookup {α β : Type} [DecidableEq α] {key : α} {value : β} {entries : List (α × β)}
    (h : entries.lookup key = some value) : (key, value) ∈ entries := by
  obtain ⟨front, back, rfl, -⟩ := List.lookup_eq_some_iff.mp h
  exact List.mem_append_right _ List.mem_cons_self

theorem Sound.lookup (h : Sound program binder) {spelling : String} {var : Variable}
    (hlookup : binder.scope.lookup spelling = some var) : var ∈ binder.declared := by
  obtain ⟨frame, hframe, hget⟩ := List.exists_of_findSome?_eq_some hlookup
  exact h.bound frame hframe _ (mem_of_lookup hget)

theorem count_declare (site : Site) (spelling : String) :
    (binder.take program (.declare site)).count program spelling =
      binder.count program spelling + if program.text site = spelling then 1 else 0 := by
  rw [take, count, List.countP_cons]
  simp only [decide_eq_true_eq]
  rfl

theorem Sound.take (h : Sound program binder) (step : Step) :
    Sound program (binder.take program step) := by
  cases step with
  | push =>
      refine ⟨?_, h.owned, h.counts, h.apart, h.filled⟩
      intro frame hframe entry hentry
      rcases List.mem_cons.mp hframe with rfl | hframe
      · cases hentry
      · exact h.bound frame hframe entry hentry
  | pop =>
      refine ⟨?_, h.owned, h.counts, h.apart, h.filled⟩
      intro frame hframe
      refine h.bound frame ?_
      obtain ⟨⟨inner, outer⟩, declared, owners⟩ := binder
      cases outer with
      | nil => exact hframe
      | cons next rest => exact List.mem_cons_of_mem _ hframe
  | declare site =>
      have hnew : ∀ var ∈ binder.declared, program.text var.site = program.text site →
          var.count ≠ binder.count program (program.text site) + 1 := by
        intro var hvar heq hcount
        have hle := (h.counts var hvar).2
        rw [heq, hcount] at hle
        exact Nat.not_succ_le_self _ hle
      refine ⟨?_, ?_, ?_, ?_, ?_⟩
      · intro frame hframe entry hentry
        rcases List.mem_cons.mp hframe with rfl | hframe
        · rcases List.mem_cons.mp hentry with rfl | hentry
          · exact List.mem_cons_self
          · exact List.mem_cons_of_mem _ (h.bound _ List.mem_cons_self entry hentry)
        · exact List.mem_cons_of_mem _
            (h.bound frame (List.mem_cons_of_mem _ hframe) entry hentry)
      · intro entry hentry
        rcases List.mem_cons.mp hentry with rfl | hentry
        · exact List.mem_cons_self
        · exact List.mem_cons_of_mem _ (h.owned entry hentry)
      · intro var hvar
        rw [count_declare]
        rcases List.mem_cons.mp hvar with rfl | hvar
        · rw [if_pos rfl]
          exact ⟨Nat.succ_pos _, Nat.le_refl _⟩
        · exact ⟨(h.counts var hvar).1, Nat.le_add_right_of_le (h.counts var hvar).2⟩
      · intro var hvar other hother heq hcount
        rcases List.mem_cons.mp hvar with rfl | hvar <;>
          rcases List.mem_cons.mp hother with rfl | hother
        · rfl
        · exact absurd hcount.symm (hnew other hother heq.symm)
        · exact absurd hcount (hnew var hvar heq)
        · exact h.apart var hvar other hother heq hcount
      · intro spelling count hpos hle
        rw [count_declare] at hle
        by_cases hold : count ≤ binder.count program spelling
        · obtain ⟨var, hvar, hfound⟩ := h.filled spelling count hpos hold
          exact ⟨var, List.mem_cons_of_mem _ hvar, hfound⟩
        · split at hle
          · rename_i heq
            subst heq
            exact ⟨_, List.mem_cons_self, rfl, by show _ + 1 = count; omega⟩
          · exact absurd hle hold
  | resolve site =>
      rw [Binder.take]
      cases hlookup : binder.scope.lookup (program.text site) with
      | none => exact h
      | some var =>
          refine ⟨h.bound, ?_, h.counts, h.apart, h.filled⟩
          intro entry hentry
          rcases List.mem_cons.mp hentry with rfl | hentry
          · exact h.lookup hlookup
          · exact h.owned entry hentry

theorem Sound.foldl (h : Sound program binder) (steps : List Step) :
    Sound program (steps.foldl (Binder.take program) binder) := by
  induction steps generalizing binder with
  | nil => exact h
  | cons step rest ih => exact ih (h.take step)

/-- The variables are the declarations that were made. -/
theorem map_site_declared (steps : List Step) (binder : Binder) :
    (steps.foldl (take program) binder).declared.map Variable.site =
      (steps.filterMap Step.declared?).reverse ++ binder.declared.map Variable.site := by
  induction steps generalizing binder with
  | nil => rfl
  | cons step rest ih =>
      rw [List.foldl_cons, ih]
      cases step with
      | push => rfl
      | pop => rfl
      | declare site =>
          have hsite : (Step.declare site).declared? = some site := rfl
          rw [List.filterMap_cons_some hsite, List.reverse_cons, List.append_assoc]
          rfl
      | resolve site =>
          rw [take]
          cases binder.scope.lookup (program.text site) <;> rfl

/-! ## Declarations keep their names -/

theorem owner?_take {step : Step} {site : Site} (h : step.site? ≠ some site) :
    (binder.take program step).owner? site = binder.owner? site := by
  cases step with
  | push => rfl
  | pop => rfl
  | declare other => exact owner?_cons_of_ne (fun heq => h (congrArg some heq.symm)) _ _ _ _
  | resolve other =>
      rw [take]
      cases binder.scope.lookup (program.text other) with
      | none => rfl
      | some var => exact owner?_cons_of_ne (fun heq => h (congrArg some heq.symm)) _ _ _ _

theorem owner?_foldl {site : Site} (steps : List Step) (binder : Binder)
    (h : site ∉ touched steps) :
    (steps.foldl (take program) binder).owner? site = binder.owner? site := by
  induction steps generalizing binder with
  | nil => rfl
  | cons step rest ih =>
      have hrest : site ∉ touched rest := by
        intro hmem
        obtain ⟨other, hother, hsite⟩ := List.mem_filterMap.mp hmem
        exact h (List.mem_filterMap.mpr ⟨other, List.mem_cons_of_mem _ hother, hsite⟩)
      have hstep : step.site? ≠ some site :=
        fun hsite => h (List.mem_filterMap.mpr ⟨step, List.mem_cons_self, hsite⟩)
      rw [List.foldl_cons, ih _ hrest, owner?_take hstep]

/-- A declaration belongs to itself, if no site is met twice. -/
theorem owner?_of_declared {site : Site} {steps : List Step}
    (hnodup : (touched steps).Nodup)
    (hsite : site ∈ steps.filterMap Step.declared?) (binder : Binder) :
    ∃ count, (steps.foldl (take program) binder).owner? site = some ⟨site, count⟩ := by
  obtain ⟨step, hstep, hdeclared⟩ := List.mem_filterMap.mp hsite
  have hdeclare : step = .declare site := by
    cases step with
    | push => cases hdeclared
    | pop => cases hdeclared
    | resolve other => cases hdeclared
    | declare other =>
        cases hdeclared
        rfl
  subst hdeclare
  obtain ⟨front, back, rfl⟩ := List.append_of_mem hstep
  have htouched : (Step.declare site).site? = some site := rfl
  rw [touched, List.filterMap_append, List.filterMap_cons_some htouched] at hnodup
  have hback : site ∉ touched back :=
    (List.nodup_cons.mp (List.nodup_append'.mp hnodup).2.1).1
  rw [List.foldl_append, List.foldl_cons, owner?_foldl back _ hback]
  exact ⟨_, owner?_cons_self _ _ _ _ _⟩

end Binder

/-! ## No site is met twice -/

namespace Names

theorem touched_append (steps more : List Step) :
    touched (steps ++ more) = touched steps ++ touched more :=
  List.filterMap_append

theorem declared_sublist (steps : List Step) :
    steps.filterMap Step.declared? <+ touched steps := by
  induction steps with
  | nil => exact List.Sublist.refl _
  | cons step rest ih =>
      cases step with
      | push => exact ih
      | pop => exact ih
      | declare site => exact ih.cons_cons site
      | resolve site => exact ih.cons site

theorem touched_scoped (steps : List Step) :
    touched (.push :: (steps ++ [.pop])) = touched steps := by
  rw [touched, List.filterMap_cons_none rfl, ← touched, touched_append]
  exact List.append_nil _

/-- The sites of a part that may be absent. -/
def sitesOf? (part : Option Node) : List Site :=
  (Node.nodesOf? part).map Node.site

mutual

/-- The walk meets each site of a tree once at most. -/
theorem touched_steps : ∀ node : Node,
    (∀ other ∈ Node.nodesAll node.children, other.site.SingleRole) →
    touched (steps node) <+~ node.nodes.map Node.site
  | .mk site children, hroles => by
      have hself : [site] <+~ (Node.mk site children).nodes.map Node.site :=
        (List.singleton_sublist.mpr List.mem_cons_self).subperm
      have hbelow : (Node.nodesAll children).map Node.site <+~
          (Node.mk site children).nodes.map Node.site :=
        ((Node.nodesAll_sublist (.mk site children)).map _).subperm
      rw [steps]
      split
      · exact hself
      · exact hself
      · exact (touched_stepsDeclarators children hroles).trans hbelow
      · exact (touched_stepsDeclarators children hroles).trans hbelow
      · rw [touched_scoped]
        exact (touched_stepsNamed children hroles).trans hbelow
      · rw [touched_scoped]
        exact (touched_stepsNamed children hroles).trans hbelow
      · exact (touched_stepsNamed children hroles).trans hbelow

theorem touched_stepsNamed : ∀ nodes : List Node,
    (∀ other ∈ Node.nodesAll nodes, other.site.SingleRole) →
    touched (stepsNamed nodes) <+~ (Node.nodesAll nodes).map Node.site
  | [], _ => by
      rw [stepsNamed]
      exact List.nil_subperm
  | child :: rest, hroles => by
      rw [Node.nodesAll] at hroles ⊢
      have hchild : ∀ other ∈ Node.nodesAll child.children, other.site.SingleRole :=
        fun other hother =>
          hroles other (List.mem_append_left _ (child.nodesAll_sublist.subset hother))
      have hrest := touched_stepsNamed rest
        fun other hother => hroles other (List.mem_append_right _ hother)
      rw [stepsNamed, List.map_append]
      split
      · rw [touched_append]
        exact (touched_steps child hchild).append hrest
      · exact hrest.trans (List.sublist_append_right _ _).subperm

theorem touched_stepsDeclarators : ∀ nodes : List Node,
    (∀ other ∈ Node.nodesAll nodes, other.site.SingleRole) →
    touched (stepsDeclarators nodes) <+~ (Node.nodesAll nodes).map Node.site
  | [], _ => by
      rw [stepsDeclarators]
      exact List.nil_subperm
  | child :: rest, hroles => by
      rw [Node.nodesAll] at hroles ⊢
      have hchild : ∀ other ∈ Node.nodesAll child.children, other.site.SingleRole :=
        fun other hother =>
          hroles other (List.mem_append_left _ (child.nodesAll_sublist.subset hother))
      have hrest := touched_stepsDeclarators rest
        fun other hother => hroles other (List.mem_append_right _ hother)
      rw [stepsDeclarators, List.map_append]
      split
      · rw [touched_append]
        exact (touched_stepsDeclarator child hchild).append hrest
      · exact hrest.trans (List.sublist_append_right _ _).subperm

theorem touched_stepsDeclarator : ∀ node : Node,
    (∀ other ∈ Node.nodesAll node.children, other.site.SingleRole) →
    touched (stepsDeclarator node) <+~ node.nodes.map Node.site
  | .mk site children, hroles => by
      have hchildren : ∀ child ∈ children, child.site.SingleRole := fun child hchild =>
        hroles child ((Node.sublist_of_mem hchild).subset child.mem_nodes_self)
      -- the value and the name are different children
      have hparts := Node.subperm_fields children hchildren [.value, .name] (by decide)
      rw [List.flatMap_cons, List.flatMap_singleton] at hparts
      have hsites := Node.subperm_map hparts Node.site
      rw [List.map_append] at hsites
      rw [stepsDeclarator, touched_append]
      refine ((touched_stepsValue children hroles).append
        (touched_stepsDeclared children hroles)).trans (hsites.trans ?_)
      exact ((Node.nodesAll_sublist (.mk site children)).map _).subperm

theorem touched_stepsValue : ∀ nodes : List Node,
    (∀ other ∈ Node.nodesAll nodes, other.site.SingleRole) →
    touched (stepsValue nodes) <+~ sitesOf? (nodes.find? (Node.carries .value))
  | [], _ => by
      rw [stepsValue]
      exact List.nil_subperm
  | child :: rest, hroles => by
      rw [Node.nodesAll] at hroles
      rw [stepsValue, List.find?_cons]
      cases child.carries .value with
      | true =>
          refine touched_steps child fun other hother => ?_
          exact hroles other (List.mem_append_left _ (child.nodesAll_sublist.subset hother))
      | false =>
          exact touched_stepsValue rest
            fun other hother => hroles other (List.mem_append_right _ hother)

theorem touched_stepsDeclared : ∀ nodes : List Node,
    (∀ other ∈ Node.nodesAll nodes, other.site.SingleRole) →
    touched (stepsDeclared nodes) <+~ sitesOf? (nodes.find? (Node.carries .name))
  | [], _ => by
      rw [stepsDeclared]
      exact List.nil_subperm
  | child :: rest, hroles => by
      rw [Node.nodesAll] at hroles
      rw [stepsDeclared, List.find?_cons]
      cases child.carries .name with
      | true =>
          simp only [if_true]
          split
          · exact (List.singleton_sublist.mpr (List.mem_map_of_mem child.mem_nodes_self)).subperm
          · refine touched_steps child fun other hother => ?_
            exact hroles other (List.mem_append_left _ (child.nodesAll_sublist.subset hother))
      | false =>
          exact touched_stepsDeclared rest
            fun other hother => hroles other (List.mem_append_right _ hother)

end

/-- A parameter lies below the child that it is found at. -/
theorem mem_nodes_of_parameter? {child node : Node} (h : Resolver.parameter? child = some node) :
    node ∈ child.nodes := by
  have hfield : ∀ {field : Field} {p : Node → Bool}, (child.field? field).filter p = some node →
      node ∈ child.nodes := by
    intro field p hfield
    have hmem : node ∈ child.children :=
      List.mem_of_find?_eq_some (Option.eq_some_of_filter_eq_some hfield)
    exact child.nodesAll_sublist.subset ((Node.sublist_of_mem hmem).subset node.mem_nodes_self)
  rw [Resolver.parameter?] at h
  split at h
  · cases h
    exact child.mem_nodes_self
  · exact hfield h
  · exact hfield h
  · exact hfield h
  · cases h

theorem parameters_sublist (nodes : List Node) :
    (nodes.filter Node.isNamed).filterMap Resolver.parameter? <+ Node.nodesAll nodes := by
  induction nodes with
  | nil => exact List.Sublist.refl _
  | cons child rest ih =>
      rw [Node.nodesAll, List.filter_cons]
      split
      · rw [List.filterMap_cons]
        cases hparameter : Resolver.parameter? child with
        | none => exact ih.trans (List.sublist_append_right _ _)
        | some node =>
            exact (List.singleton_sublist.mpr (mem_nodes_of_parameter? hparameter)).append ih
      · exact ih.trans (List.sublist_append_right _ _)

end Names

namespace Program

variable {program : Program}

theorem touched_eq (program : Program) :
    touched program.steps =
      program.parameters.map Node.site ++ touched (stepsNamed program.entry.body.children) := by
  rw [steps, touched_append]
  congr 1
  rw [touched, List.filterMap_map]
  exact congrFun List.filterMap_eq_map _

theorem parameters_subperm {body only : Node} (h : program.entry = ⟨body, some only⟩) :
    program.parameters.map Node.site <+~ sitesOf? (only.field? .parameters) := by
  have hfield : program.entry.function.bind (Node.field? .parameters) =
      only.field? .parameters := by
    rw [h]
    rfl
  rw [parameters_eq, hfield]
  cases only.field? .parameters with
  | none => exact List.nil_subperm
  | some parameters =>
      exact (((parameters_sublist parameters.children).trans
        parameters.nodesAll_sublist).map _).subperm

/-- The sites that the walk through a program meets are among those of its tree. -/
theorem touched_subperm (hroles : program.SingleRoles) :
    touched program.steps <+~ (Node.nodesAll program.root.children).map Node.site := by
  rw [touched_eq]
  rcases program.entry_cases with h | ⟨only, honly, body, hbody, h⟩
  · rw [parameters, h]
    exact touched_stepsNamed _ hroles
  · have hbelow : Node.nodesAll only.children <+ Node.nodesAll program.root.children :=
      only.nodesAll_sublist.trans (Node.sublist_of_mem honly)
    have hchildren : ∀ child ∈ only.children, child.site.SingleRole := fun child hchild =>
      hroles child (hbelow.subset ((Node.sublist_of_mem hchild).subset child.mem_nodes_self))
    -- the parameters and the body are different children of the function
    have hparts := Node.subperm_fields only.children hchildren [.parameters, .body] (by decide)
    rw [List.flatMap_cons, List.flatMap_singleton] at hparts
    have hsites := Node.subperm_map (hparts.trans hbelow.subperm) Node.site
    rw [List.map_append] at hsites
    refine List.Subperm.trans ((parameters_subperm h).append ?_) hsites
    have hbody' : only.children.find? (Node.carries .body) = some body := hbody
    have hinner : body.nodes <+ Node.nodesAll only.children :=
      Node.sublist_of_mem (List.mem_of_find?_eq_some hbody)
    rw [h, hbody']
    refine (touched_stepsNamed body.children fun other hother => ?_).trans
      (body.nodesAll_sublist.map _).subperm
    exact hroles other (hbelow.subset (hinner.subset (body.nodesAll_sublist.subset hother)))

theorem nodup_touched (hroles : program.SingleRoles) : (touched program.steps).Nodup := by
  obtain ⟨sites, hperm, hsublist⟩ := touched_subperm hroles
  exact hperm.nodup (program.nodup_sites.sublist hsublist)

/-! ## The whole walk -/

/-- The declaration that an occurrence belongs to. -/
def declarationOf? (program : Program) (site : Site) : Option Site :=
  (program.binder.owner? site).map Variable.site

theorem sound_binder (program : Program) : program.binder.Sound program :=
  Binder.sound_start.foldl program.steps

theorem map_site_binder (program : Program) :
    program.binder.declared.map Variable.site = program.declarations.reverse := by
  rw [binder, Binder.map_site_declared]
  exact List.append_nil _

theorem mem_declarations_of_declared {var : Variable} (h : var ∈ program.binder.declared) :
    var.site ∈ program.declarations := by
  rw [← List.mem_reverse, ← map_site_binder]
  exact List.mem_map_of_mem h

theorem exists_declared {site : Site} (h : site ∈ program.declarations) :
    ∃ var ∈ program.binder.declared, var.site = site := by
  rw [← List.mem_reverse, ← map_site_binder] at h
  exact List.mem_map.mp h

/-- A named occurrence belongs to a declaration and has its name. -/
theorem exists_of_get?_names {site : Site} {name : String}
    (h : program.names.get? site = some name) :
    ∃ var ∈ program.binder.declared, program.declarationOf? site = some var.site ∧
      var.name program = name := by
  rw [get?_names] at h
  obtain ⟨var, howner, hname⟩ := Option.map_eq_some_iff.mp h
  refine ⟨var, program.sound_binder.owned _ (Binder.mem_of_lookup howner), ?_, hname⟩
  rw [declarationOf?, howner]
  rfl

theorem nodup_declarations (hroles : program.SingleRoles) : program.declarations.Nodup :=
  (nodup_touched hroles).sublist (declared_sublist program.steps)

/-- A variable is that of its own declaration. -/
theorem owner?_site (hroles : program.SingleRoles) {var : Variable}
    (h : var ∈ program.binder.declared) : program.binder.owner? var.site = some var := by
  have hsites : (program.binder.declared.map Variable.site).Nodup := by
    rw [map_site_binder]
    exact List.nodup_reverse.mpr (nodup_declarations hroles)
  obtain ⟨count, howner⟩ := Binder.owner?_of_declared (nodup_touched hroles)
    (mem_declarations_of_declared h) Binder.start
  have howned : Variable.mk var.site count ∈ program.binder.declared :=
    program.sound_binder.owned _ (Binder.mem_of_lookup howner)
  rw [binder, howner, List.inj_on_of_nodup_map hsites howned h rfl]

/-- So its declaration has its name. -/
theorem get?_names_site (hroles : program.SingleRoles) {var : Variable}
    (h : var ∈ program.binder.declared) :
    program.names.get? var.site = some (var.name program) := by
  rw [get?_names, owner?_site hroles h]
  rfl

end Program

end DefUse
