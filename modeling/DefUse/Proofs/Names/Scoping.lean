/-
# `Proofs.Names.Scoping` — which variables are in view during the walk

The name of an occurrence is settled when the walk meets it: it is that of the variable
in view at that moment (`Program.owner?_of_split`), since no site is met twice.  To know
what is in view, one has to know which steps change it.

* The steps at a node touch the innermost frame at most (`Names.keepsOuter_steps`), so a
  block and a `for` leave no trace.
* The steps at a node that declares nothing outside of them (`Names.declares`) leave the
  whole scope as it was (`Names.keeps_steps`).
* Where nothing is declared at all, the same variables are in view at every moment
  (`Names.steady_steps`), also inside the frames that are opened on the way.

`Names.Meets` puts this to use: some steps are taken in the course of others, with the
same variables in view as at their beginning.
-/
import DefUse.Proofs.Names.Binding

namespace DefUse

open DefUse.Tree

namespace Scope

variable {α : Type}

/-- Closing a frame gives back the scope around it. -/
theorem pop_of_outer {scope other : Scope α} (h : scope.outer = other.inner :: other.outer) :
    scope.pop = other := by
  rw [pop, h]

end Scope

namespace Names

variable (program : Program)

/-- The steps leave the scope as it was. -/
def Keeps (steps : List Step) : Prop :=
  ∀ binder : Binder, (steps.foldl (Binder.take program) binder).scope = binder.scope

/-- The steps leave all frames but the innermost one as they were. -/
def KeepsOuter (steps : List Step) : Prop :=
  ∀ binder : Binder, (steps.foldl (Binder.take program) binder).scope.outer = binder.scope.outer

/-- After the steps the same variables are in view as before. -/
def Still (steps : List Step) : Prop :=
  ∀ (binder : Binder) (name : String),
    (steps.foldl (Binder.take program) binder).scope.lookup name = binder.scope.lookup name

/-- While the steps are taken, the same variables are in view all the time. -/
def Steady (steps : List Step) : Prop :=
  ∀ before after, steps = before ++ after → Still program before

/-- In the course of the steps `whole` come the steps `part`, and the same variables are in view
then as at the beginning. -/
def Meets (whole part : List Step) : Prop :=
  ∃ before after, whole = before ++ (part ++ after) ∧ Still program before

variable {program} {taken more part : List Step}

/-! ## Sequences of steps -/

theorem keeps_nil : Keeps program [] :=
  fun _ => rfl

theorem Keeps.append (h : Keeps program taken) (h' : Keeps program more) :
    Keeps program (taken ++ more) := by
  intro binder
  rw [List.foldl_append, h', h]

theorem keeps_resolve (site : Site) : Keeps program [.resolve site] := by
  intro binder
  show (binder.take program (.resolve site)).scope = binder.scope
  rw [Binder.take]
  cases binder.scope.lookup (program.text site) <;> rfl

theorem Keeps.keepsOuter (h : Keeps program taken) : KeepsOuter program taken := by
  intro binder
  rw [h]

theorem KeepsOuter.append (h : KeepsOuter program taken) (h' : KeepsOuter program more) :
    KeepsOuter program (taken ++ more) := by
  intro binder
  rw [List.foldl_append, h', h]

/-- What is done in a frame of its own leaves no trace. -/
theorem KeepsOuter.framed (h : KeepsOuter program taken) :
    Keeps program (.push :: (taken ++ [.pop])) := by
  intro binder
  rw [List.foldl_cons, List.foldl_append]
  exact Scope.pop_of_outer (h (binder.take program .push))

theorem Keeps.still (h : Keeps program taken) : Still program taken := by
  intro binder name
  rw [h]

theorem Still.append (h : Still program taken) (h' : Still program more) :
    Still program (taken ++ more) := by
  intro binder name
  rw [List.foldl_append, h', h]

theorem Steady.still (h : Steady program taken) : Still program taken :=
  h taken [] (List.append_nil _).symm

theorem steady_nil : Steady program [] := by
  intro before after h
  rw [(List.append_eq_nil_iff.mp h.symm).1]
  exact keeps_nil.still

theorem Steady.append (h : Steady program taken) (h' : Steady program more) :
    Steady program (taken ++ more) := by
  intro before after heq
  rcases List.append_eq_append_iff.mp heq with ⟨inner, rfl, hmore⟩ | ⟨inner, htaken, -⟩
  · exact h.still.append (h' inner after hmore)
  · exact h before inner htaken

theorem steady_resolve (site : Site) : Steady program [.resolve site] := by
  intro before after heq
  cases before with
  | nil => exact keeps_nil.still
  | cons first rest =>
      obtain ⟨rfl, hrest⟩ := List.cons.inj heq
      rw [(List.append_eq_nil_iff.mp hrest.symm).1]
      exact (keeps_resolve site).still

theorem Steady.framed (h : Steady program taken) (houter : KeepsOuter program taken) :
    Steady program (.push :: (taken ++ [.pop])) := by
  intro before after heq
  cases before with
  | nil => exact keeps_nil.still
  | cons first rest =>
      obtain ⟨rfl, hrest⟩ := List.cons.inj heq
      rcases List.append_eq_append_iff.mp hrest with ⟨inner, rfl, hpop⟩ | ⟨inner, htaken, -⟩
      · cases inner with
        | nil =>
            -- all but the closing of the frame
            intro binder name
            rw [List.append_nil, List.foldl_cons, h.still]
            rfl
        | cons last tail =>
            obtain ⟨rfl, htail⟩ := List.cons.inj hpop
            rw [(List.append_eq_nil_iff.mp htail.symm).1]
            exact houter.framed.still
      · intro binder name
        rw [List.foldl_cons, h rest inner htaken]
        rfl

theorem Meets.refl (taken : List Step) : Meets program taken taken :=
  ⟨[], [], (List.append_nil _).symm, keeps_nil.still⟩

theorem Meets.trans {whole inner : List Step} (h : Meets program whole part)
    (h' : Meets program part inner) : Meets program whole inner := by
  obtain ⟨before, after, rfl, hbefore⟩ := h
  obtain ⟨before', after', rfl, hbefore'⟩ := h'
  exact ⟨before ++ before', after' ++ after, by simp only [List.append_assoc],
    hbefore.append hbefore'⟩

theorem Meets.append_left (h : Meets program taken part) (more : List Step) :
    Meets program (taken ++ more) part := by
  obtain ⟨before, after, rfl, hbefore⟩ := h
  exact ⟨before, after ++ more, by simp only [List.append_assoc], hbefore⟩

theorem Meets.append_right (h : Meets program more part) (htaken : Still program taken) :
    Meets program (taken ++ more) part := by
  obtain ⟨before, after, rfl, hbefore⟩ := h
  exact ⟨taken ++ before, after, by simp only [List.append_assoc], htaken.append hbefore⟩

/-- While the same variables are in view, every step is made with them in view. -/
theorem Steady.meets (h : Steady program taken) {step : Step} (hmem : step ∈ taken) :
    Meets program taken [step] := by
  obtain ⟨before, after, rfl⟩ := List.append_of_mem hmem
  exact ⟨before, after, rfl, h before _ rfl⟩

/-! ## The steps at a node -/

mutual

/-- Only the innermost frame changes. -/
theorem keepsOuter_steps : ∀ node : Node, KeepsOuter program (steps node)
  | .mk site children => by
      rw [steps]
      split
      · exact (keeps_resolve site).keepsOuter
      · exact (keeps_resolve site).keepsOuter
      · exact keepsOuter_stepsDeclarators children
      · exact keepsOuter_stepsDeclarators children
      · exact (keepsOuter_stepsNamed children).framed.keepsOuter
      · exact (keepsOuter_stepsNamed children).framed.keepsOuter
      · exact keepsOuter_stepsNamed children

theorem keepsOuter_stepsNamed : ∀ nodes : List Node, KeepsOuter program (stepsNamed nodes)
  | [] => by
      rw [stepsNamed]
      exact keeps_nil.keepsOuter
  | child :: rest => by
      rw [stepsNamed]
      split
      · exact (keepsOuter_steps child).append (keepsOuter_stepsNamed rest)
      · exact keepsOuter_stepsNamed rest

theorem keepsOuter_stepsDeclarators : ∀ nodes : List Node,
    KeepsOuter program (stepsDeclarators nodes)
  | [] => by
      rw [stepsDeclarators]
      exact keeps_nil.keepsOuter
  | child :: rest => by
      rw [stepsDeclarators]
      split
      · exact (keepsOuter_stepsDeclarator child).append (keepsOuter_stepsDeclarators rest)
      · exact keepsOuter_stepsDeclarators rest

theorem keepsOuter_stepsDeclarator : ∀ node : Node, KeepsOuter program (stepsDeclarator node)
  | .mk _ children => by
      rw [stepsDeclarator]
      exact (keepsOuter_stepsValue children).append (keepsOuter_stepsDeclared children)

theorem keepsOuter_stepsValue : ∀ nodes : List Node, KeepsOuter program (stepsValue nodes)
  | [] => by
      rw [stepsValue]
      exact keeps_nil.keepsOuter
  | child :: rest => by
      rw [stepsValue]
      split
      · exact keepsOuter_steps child
      · exact keepsOuter_stepsValue rest

theorem keepsOuter_stepsDeclared : ∀ nodes : List Node, KeepsOuter program (stepsDeclared nodes)
  | [] => by
      rw [stepsDeclared]
      exact keeps_nil.keepsOuter
  | child :: rest => by
      rw [stepsDeclared]
      split
      · split
        · exact fun _ => rfl
        · exact keepsOuter_steps child
      · exact keepsOuter_stepsDeclared rest

end

mutual

/-- Does walking through the node declare a variable in the frame around it? -/
def declares : Node → Bool
  | .mk site children =>
    match site.kind with
    | .identifier | .shorthandIdentifier | .statementBlock | .forStatement => false
    | .lexicalDeclaration | .variableDeclaration => true
    | _ => declaresNamed children

/-- Does walking through the named ones among several nodes declare one? -/
def declaresNamed : List Node → Bool
  | [] => false
  | child :: rest => (child.isNamed && declares child) || declaresNamed rest

end

theorem declaresNamed_eq_false {nodes : List Node} :
    declaresNamed nodes = false ↔
      ∀ child ∈ nodes, child.isNamed = true → declares child = false := by
  induction nodes with
  | nil => simp [declaresNamed]
  | cons child rest ih =>
      rw [declaresNamed, Bool.or_eq_false_iff, ih, List.forall_mem_cons, Bool.and_eq_false_imp]

mutual

/-- A node that declares nothing leaves the scope as it was. -/
theorem keeps_steps : ∀ node : Node, declares node = false → Keeps program (steps node)
  | .mk site children, h => by
      rw [declares] at h
      rw [steps]
      generalize site.kind = kind at h
      split at h
      · exact keeps_resolve site
      · exact keeps_resolve site
      · exact (keepsOuter_stepsNamed children).framed
      · exact (keepsOuter_stepsNamed children).framed
      · cases h
      · cases h
      · simp only
        exact keeps_stepsNamed children h

theorem keeps_stepsNamed : ∀ nodes : List Node, declaresNamed nodes = false →
    Keeps program (stepsNamed nodes)
  | [], _ => by
      rw [stepsNamed]
      exact keeps_nil
  | child :: rest, h => by
      obtain ⟨hchild, hrest⟩ := List.forall_mem_cons.mp (declaresNamed_eq_false.mp h)
      rw [stepsNamed]
      split
      · rename_i hnamed
        exact (keeps_steps child (hchild hnamed)).append
          (keeps_stepsNamed rest (declaresNamed_eq_false.mpr hrest))
      · exact keeps_stepsNamed rest (declaresNamed_eq_false.mpr hrest)

end

/-! ## Declarations -/

theorem stepsDeclarators_eq (nodes : List Node) : stepsDeclarators nodes =
    ((nodes.filter Node.isNamed).filter fun node => node.kind = .variableDeclarator).flatMap
      stepsDeclarator := by
  induction nodes with
  | nil => rw [stepsDeclarators]; rfl
  | cons child rest ih =>
      rw [stepsDeclarators, ih, List.filter_filter, List.filter_filter, List.filter_cons,
        Bool.and_comm (decide _)]
      split <;> rfl

/-- A declaration is walked through declarator by declarator. -/
theorem steps_of_isDeclaration {node : Node} (h : isDeclaration node = true) :
    steps node = (declarators node).flatMap stepsDeclarator := by
  obtain ⟨site, children⟩ := node
  rw [isDeclaration, Node.kind, Node.site_mk, Bool.or_eq_true, decide_eq_true_eq,
    decide_eq_true_eq] at h
  rw [steps, declarators, Node.namedChildren, Node.children, ← stepsDeclarators_eq]
  rcases h with hkind | hkind
  · rw [hkind]
  · rw [hkind]

theorem stepsValue_eq (nodes : List Node) :
    stepsValue nodes = ((nodes.find? (Node.carries .value)).map steps).getD [] := by
  induction nodes with
  | nil => rw [stepsValue]; rfl
  | cons child rest ih =>
      rw [stepsValue, List.find?_cons, ih]
      cases child.carries .value <;> rfl

/-- The steps at the name of a declarator. -/
def stepsName (name : Node) : List Step :=
  if name.kind = .identifier then [.declare name.site] else steps name

theorem stepsDeclared_eq (nodes : List Node) :
    stepsDeclared nodes = ((nodes.find? (Node.carries .name)).map stepsName).getD [] := by
  induction nodes with
  | nil => rw [stepsDeclared]; rfl
  | cons child rest ih =>
      rw [stepsDeclared, List.find?_cons, ih]
      cases child.carries .name <;> rfl

/-- The value of a declarator comes first, then its name. -/
theorem stepsDeclarator_eq (node : Node) : stepsDeclarator node =
    ((node.field? .value).map steps).getD [] ++ ((node.field? .name).map stepsName).getD [] := by
  obtain ⟨site, children⟩ := node
  rw [stepsDeclarator, stepsValue_eq, stepsDeclared_eq]
  rfl

theorem isDeclaration_eq_false {node : Node} (h : declares node = false) :
    isDeclaration node = false := by
  obtain ⟨site, children⟩ := node
  rw [declares] at h
  rw [isDeclaration, Node.kind, Node.site_mk]
  generalize site.kind = kind at h
  cases kind with
  | lexicalDeclaration => cases h
  | variableDeclaration => cases h
  | _ => rfl

theorem stepsNamed_append (nodes more : List Node) :
    stepsNamed (nodes ++ more) = stepsNamed nodes ++ stepsNamed more := by
  induction nodes with
  | nil => rw [stepsNamed]; rfl
  | cons child rest ih =>
      rw [List.cons_append, stepsNamed, stepsNamed, ih]
      split
      · rw [List.append_assoc]
      · rfl

/-- Among several nodes that declare nothing, each is met with the same variables in view. -/
theorem meets_stepsNamed {nodes : List Node} (h : declaresNamed nodes = false) {child : Node}
    (hchild : child ∈ nodes) (hnamed : child.isNamed = true) :
    Meets program (stepsNamed nodes) (steps child) := by
  induction nodes with
  | nil => cases hchild
  | cons first rest ih =>
      obtain ⟨hfirst, hrest⟩ := List.forall_mem_cons.mp (declaresNamed_eq_false.mp h)
      have hrest' := declaresNamed_eq_false.mpr hrest
      rw [stepsNamed]
      rcases List.mem_cons.mp hchild with rfl | hchild
      · rw [if_pos hnamed]
        exact (Meets.refl _).append_left _
      · split
        · rename_i hnamed'
          exact (ih hrest' hchild).append_right (keeps_steps first (hfirst hnamed')).still
        · exact ih hrest' hchild

mutual

/-- Where no declaration is, the same variables are in view all the time. -/
theorem steady_steps : ∀ node : Node, (∀ other ∈ node.nodes, isDeclaration other = false) →
    Steady program (steps node)
  | .mk site children, h => by
      have hself := h _ (Node.mem_nodes_self _)
      have hbelow : ∀ other ∈ Node.nodesAll children, isDeclaration other = false :=
        fun other hother => h other (List.mem_cons_of_mem _ hother)
      rw [isDeclaration, Node.kind, Node.site_mk] at hself
      rw [steps]
      generalize site.kind = kind at hself
      split
      · exact steady_resolve site
      · exact steady_resolve site
      · cases hself
      · cases hself
      · exact (steady_stepsNamed children hbelow).framed (keepsOuter_stepsNamed children)
      · exact (steady_stepsNamed children hbelow).framed (keepsOuter_stepsNamed children)
      · exact steady_stepsNamed children hbelow

theorem steady_stepsNamed : ∀ nodes : List Node,
    (∀ other ∈ Node.nodesAll nodes, isDeclaration other = false) →
    Steady program (stepsNamed nodes)
  | [], _ => by
      rw [stepsNamed]
      exact steady_nil
  | child :: rest, h => by
      rw [Node.nodesAll] at h
      have hrest := steady_stepsNamed rest fun other hother =>
        h other (List.mem_append_right _ hother)
      rw [stepsNamed]
      split
      · exact (steady_steps child fun other hother =>
          h other (List.mem_append_left _ hother)).append hrest
      · exact hrest

end

mutual

/-- Where no declaration is, nothing is declared. -/
theorem declares_eq_false : ∀ node : Node, (∀ other ∈ node.nodes, isDeclaration other = false) →
    declares node = false
  | .mk site children, h => by
      have hself := h _ (Node.mem_nodes_self _)
      rw [isDeclaration, Node.kind, Node.site_mk] at hself
      rw [declares]
      generalize site.kind = kind at hself
      split
      · rfl
      · rfl
      · rfl
      · rfl
      · cases hself
      · cases hself
      · exact declaresNamed_of_nodes children fun other hother =>
          h other (List.mem_cons_of_mem _ hother)

theorem declaresNamed_of_nodes : ∀ nodes : List Node,
    (∀ other ∈ Node.nodesAll nodes, isDeclaration other = false) → declaresNamed nodes = false
  | [], _ => rfl
  | child :: rest, h => by
      rw [Node.nodesAll] at h
      rw [declaresNamed, declares_eq_false child fun other hother =>
          h other (List.mem_append_left _ hother),
        declaresNamed_of_nodes rest fun other hother => h other (List.mem_append_right _ hother),
        Bool.and_false, Bool.or_false]

end

end Names

/-! ## What an occurrence is named after -/

namespace Binder

variable {program : Program}

/-- A step makes no variable vanish. -/
theorem declared_suffix (steps : List Names.Step) (binder : Binder) :
    binder.declared <:+ (steps.foldl (take program) binder).declared := by
  induction steps generalizing binder with
  | nil => exact List.suffix_rfl
  | cons step rest ih =>
      refine List.IsSuffix.trans ?_ (ih (binder.take program step))
      cases step with
      | push => exact List.suffix_rfl
      | pop => exact List.suffix_rfl
      | declare site => exact List.suffix_cons _ _
      | resolve site =>
          rw [take]
          cases binder.scope.lookup (program.text site) <;> exact List.suffix_rfl

end Binder

namespace Program

variable {program : Program}

open Names

/-- An occurrence belongs to the variable that is in view when it is met. -/
theorem owner?_of_split (hroles : program.SingleRoles) {site : Site} {before after : List Step}
    (h : program.steps = before ++ .resolve site :: after) :
    program.binder.owner? site =
      (before.foldl (Binder.take program) .start).scope.lookup (program.text site) := by
  have hnodup := nodup_touched hroles
  have hsite : (Step.resolve site).site? = some site := rfl
  rw [h, touched_append, touched, touched, List.filterMap_cons_some hsite,
    List.nodup_middle, List.nodup_cons, List.mem_append, not_or] at hnodup
  obtain ⟨⟨hbefore, hafter⟩, -⟩ := hnodup
  -- it is not met before, and not again afterwards
  have hfresh : (before.foldl (Binder.take program) .start).owner? site = none :=
    Binder.owner?_foldl before .start hbefore
  rw [binder, h, List.foldl_append, List.foldl_cons, Binder.owner?_foldl after _ hafter,
    Binder.take]
  cases hlookup :
      (before.foldl (Binder.take program) .start).scope.lookup (program.text site) with
  | none => exact hfresh
  | some var => exact Binder.owner?_cons_self _ _ _ _ _

/-! ## The walk on its way -/

/-- The walk comes to this state, with the steps `rest` still to take. -/
def Stage (program : Program) (binder : Binder) (rest : List Step) : Prop :=
  ∃ front, program.steps = front ++ rest ∧ binder = front.foldl (Binder.take program) .start

variable {binder : Binder} {rest taken : List Step}

theorem stage_start (program : Program) : program.Stage .start program.steps :=
  ⟨[], rfl, rfl⟩

theorem Stage.advance (h : program.Stage binder (taken ++ rest)) :
    program.Stage (taken.foldl (Binder.take program) binder) rest := by
  obtain ⟨front, hsteps, rfl⟩ := h
  exact ⟨front ++ taken, by rw [hsteps, List.append_assoc], by rw [List.foldl_append]⟩

/-- No variable is declared twice. -/
theorem Stage.nodup_sites (hroles : program.SingleRoles) (h : program.Stage binder rest) :
    (binder.declared.map Variable.site).Nodup := by
  obtain ⟨front, hsteps, rfl⟩ := h
  have hsites : (program.binder.declared.map Variable.site).Nodup := by
    rw [map_site_binder]
    exact List.nodup_reverse.mpr (nodup_declarations hroles)
  refine hsites.sublist (List.Sublist.map _ ?_)
  rw [Program.binder, hsteps, List.foldl_append]
  exact (Binder.declared_suffix rest _).sublist

theorem Stage.mem_declared {var : Variable} (h : program.Stage binder rest)
    (hvar : var ∈ binder.declared) : var ∈ program.binder.declared := by
  obtain ⟨front, hsteps, rfl⟩ := h
  rw [Program.binder, hsteps, List.foldl_append]
  exact (Binder.declared_suffix rest _).subset hvar

/-- An occurrence that is met among the next steps belongs to the variable in view now. -/
theorem Stage.owner?_of_meets (hroles : program.SingleRoles)
    (h : program.Stage binder (taken ++ rest)) {site : Site}
    (hmeets : Meets program taken [.resolve site]) :
    program.binder.owner? site = binder.scope.lookup (program.text site) := by
  obtain ⟨before, after, rfl, hstill⟩ := hmeets
  rw [List.append_assoc] at h
  obtain ⟨front, hsteps, hbinder⟩ := h.advance
  rw [owner?_of_split hroles hsteps, ← hbinder, hstill]

end Program

end DefUse
