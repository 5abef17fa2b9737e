/-
# `Proofs.Names.Walk` — the walk behind the names

Two things happen at once when a program's variables are named: occurrences are
traced to declarations, and declarations are given texts.  Here they are taken apart.

What the walk does to a tree is a sequence of steps that does not depend on what is
known on the way (`Program.steps`): parameters are declared, frames are opened and
closed, declarations are made, occurrences are looked up.  These steps can be taken with
*variables* in the place of names, a variable being a declaration and the number it has
among those of its spelling (`Binder`).  Then the name of an occurrence is that of its
variable (`Program.get?_names`).
-/
import DefUse.Names

namespace DefUse

open DefUse.Tree

/-! ## Steps -/

namespace Names

/-- One thing that the walk does. -/
inductive Step where
  | push
  | pop
  /-- Declares the variable at a site. -/
  | declare (site : Site)
  /-- Looks up the occurrence at a site. -/
  | resolve (site : Site)
deriving DecidableEq, Inhabited

/-- The site that may get a name. -/
def Step.site? : Step → Option Site
  | push | pop => none
  | declare site | resolve site => some site

/-- The site of a declaration. -/
def Step.declared? : Step → Option Site
  | declare site => some site
  | push | pop | resolve _ => none

mutual

/-- The steps at a node. -/
def steps : Node → List Step
  | .mk site children =>
    match site.kind with
    | .identifier | .shorthandIdentifier => [.resolve site]
    | .lexicalDeclaration | .variableDeclaration => stepsDeclarators children
    | .statementBlock | .forStatement => .push :: (stepsNamed children ++ [.pop])
    | _ => stepsNamed children

/-- The steps at the named ones among several nodes. -/
def stepsNamed : List Node → List Step
  | [] => []
  | child :: rest => if child.isNamed then steps child ++ stepsNamed rest else stepsNamed rest

/-- The steps at the declarators of a declaration. -/
def stepsDeclarators : List Node → List Step
  | [] => []
  | child :: rest =>
    if child.isNamed && child.kind = .variableDeclarator then
      stepsDeclarator child ++ stepsDeclarators rest
    else stepsDeclarators rest

/-- The steps at a declarator: its value comes first. -/
def stepsDeclarator : Node → List Step
  | .mk _ children => stepsValue children ++ stepsDeclared children

/-- The steps at the value among the children of a declarator. -/
def stepsValue : List Node → List Step
  | [] => []
  | child :: rest => if child.carries .value then steps child else stepsValue rest

/-- The steps at the name among the children of a declarator. -/
def stepsDeclared : List Node → List Step
  | [] => []
  | child :: rest =>
    if child.carries .name then
      if child.kind = .identifier then [.declare child.site] else steps child
    else stepsDeclared rest

end

/-- The name in a role among several nodes.  A pattern is no name. -/
def nameIn (role : Field) : List Node → List Node
  | [] => []
  | child :: rest =>
    if child.carries role then if child.kind = .identifier then [child] else []
    else nameIn role rest

/-- The name that a parameter declares.  It stands alone, in the place of a pattern, or before a
default value; no other parameter declares a name. -/
def parameterName : Node → List Node
  | .mk site children =>
    match site.kind with
    | .identifier => [.mk site children]
    | .requiredParameter | .optionalParameter => nameIn .pattern children
    | .assignmentPattern => nameIn .left children
    | _ => []

/-- The names that the parameters among several nodes declare, from left to right. -/
def parameterNames : List Node → List Node
  | [] => []
  | child :: rest =>
    if child.isNamed then parameterName child ++ parameterNames rest else parameterNames rest

theorem nameIn_eq (role : Field) (nodes : List Node) :
    nameIn role nodes =
      ((nodes.find? (Node.carries role)).filter fun node => node.kind = .identifier).toList := by
  induction nodes with
  | nil => rfl
  | cons child rest ih =>
      rw [nameIn, List.find?_cons]
      cases child.carries role with
      | true => by_cases hkind : child.kind = .identifier <;> simp [Option.filter, hkind]
      | false => exact ih

theorem parameterName_eq (node : Node) :
    parameterName node = (Resolver.parameter? node).toList := by
  obtain ⟨site, children⟩ := node
  rw [parameterName, Resolver.parameter?, Node.kind, Node.site]
  generalize site.kind = kind
  cases kind with
  | requiredParameter | optionalParameter | assignmentPattern => exact nameIn_eq _ children
  | _ => rfl

theorem parameterNames_eq (nodes : List Node) :
    parameterNames nodes = (nodes.filter Node.isNamed).filterMap Resolver.parameter? := by
  induction nodes with
  | nil => rfl
  | cons child rest ih =>
      rw [parameterNames, List.filter_cons]
      split
      · rw [parameterName_eq, ih, List.filterMap_cons]
        cases Resolver.parameter? child <;> rfl
      · exact ih

end Names

open Names

/-- Takes a step. -/
def Resolver.take (program : Program) (resolver : Resolver) : Step → Resolver
  | .push => resolver.push
  | .pop => resolver.pop
  | .declare site => resolver.declare program site
  | .resolve site => resolver.resolve program site

namespace Resolver

variable (program : Program)

mutual

theorem visit_eq : ∀ (node : Node) (resolver : Resolver),
    visit program node resolver = (steps node).foldl (take program) resolver
  | .mk site children, resolver => by
      rw [visit, steps]
      generalize site.kind = kind
      split
      · rfl
      · rfl
      · exact visitDeclarators_eq children resolver
      · exact visitDeclarators_eq children resolver
      · rw [visitNamed_eq, List.foldl_cons, List.foldl_append]
        rfl
      · rw [visitNamed_eq, List.foldl_cons, List.foldl_append]
        rfl
      · simp only [visitNamed_eq children]

theorem visitNamed_eq : ∀ (nodes : List Node) (resolver : Resolver),
    visitNamed program nodes resolver = (stepsNamed nodes).foldl (take program) resolver
  | [], _ => by rw [visitNamed, stepsNamed, List.foldl_nil]
  | child :: rest, resolver => by
      rw [visitNamed, stepsNamed]
      split
      · rw [visitNamed_eq rest, visit_eq child, List.foldl_append]
      · exact visitNamed_eq rest resolver

theorem visitDeclarators_eq : ∀ (nodes : List Node) (resolver : Resolver),
    visitDeclarators program nodes resolver =
      (stepsDeclarators nodes).foldl (take program) resolver
  | [], _ => by rw [visitDeclarators, stepsDeclarators, List.foldl_nil]
  | child :: rest, resolver => by
      rw [visitDeclarators, stepsDeclarators]
      split
      · rw [visitDeclarators_eq rest, visitDeclarator_eq child, List.foldl_append]
      · exact visitDeclarators_eq rest resolver

theorem visitDeclarator_eq : ∀ (node : Node) (resolver : Resolver),
    visitDeclarator program node resolver = (stepsDeclarator node).foldl (take program) resolver
  | .mk _ children, resolver => by
      rw [visitDeclarator, stepsDeclarator, visitDeclared_eq children, visitValue_eq children,
        List.foldl_append]

theorem visitValue_eq : ∀ (nodes : List Node) (resolver : Resolver),
    visitValue program nodes resolver = (stepsValue nodes).foldl (take program) resolver
  | [], _ => by rw [visitValue, stepsValue, List.foldl_nil]
  | child :: rest, resolver => by
      rw [visitValue, stepsValue]
      split
      · exact visit_eq child resolver
      · exact visitValue_eq rest resolver

theorem visitDeclared_eq : ∀ (nodes : List Node) (resolver : Resolver),
    visitDeclared program nodes resolver = (stepsDeclared nodes).foldl (take program) resolver
  | [], _ => by rw [visitDeclared, stepsDeclared, List.foldl_nil]
  | child :: rest, resolver => by
      rw [visitDeclared, stepsDeclared]
      split
      · split
        · rfl
        · exact visit_eq child resolver
      · exact visitDeclared_eq rest resolver

end

end Resolver

namespace Program

/-- The plain parameters of the function that the program is, if it is one. -/
def parameters (program : Program) : List Node :=
  match program.entry.function.bind (Node.field? .parameters) with
  | some parameters => parameterNames parameters.children
  | none => []

theorem parameters_eq (program : Program) :
    program.parameters = match program.entry.function.bind (Node.field? .parameters) with
      | some parameters => parameters.namedChildren.filterMap Resolver.parameter?
      | none => [] := by
  rw [parameters]
  cases program.entry.function.bind (Node.field? .parameters) with
  | none => rfl
  | some parameters => exact parameterNames_eq parameters.children

/-- The whole walk: the parameters, then the statements. -/
def steps (program : Program) : List Step :=
  program.parameters.map (fun node => .declare node.site) ++ stepsNamed program.entry.body.children

/-- The sites of all declarations, in the order of the walk. -/
def declarations (program : Program) : List Site :=
  program.steps.filterMap Step.declared?

theorem names_eq_foldl (program : Program) :
    program.names = (program.steps.foldl (Resolver.take program) Resolver.start).names := by
  rw [steps, List.foldl_append, ← Resolver.visitNamed_eq, List.foldl_map, parameters_eq]
  simp only [names]
  cases program.entry.function.bind (Node.field? .parameters) <;> rfl

end Program

/-! ## Scopes -/

namespace Scope

variable {α β : Type}

/-- The scope with every value replaced. -/
def map (f : α → β) (scope : Scope α) : Scope β :=
  ⟨List.map (Prod.map id f) scope.inner, scope.outer.map (List.map (Prod.map id f))⟩

theorem frames_map (f : α → β) (scope : Scope α) :
    (scope.map f).frames = scope.frames.map (List.map (Prod.map id f)) := rfl

theorem map_pop (f : α → β) (scope : Scope α) : scope.pop.map f = (scope.map f).pop := by
  obtain ⟨inner, outer⟩ := scope
  cases outer <;> rfl

theorem get?_map (f : α → β) (name : String) (frame : Frame α) :
    Frame.get? name (List.map (Prod.map id f) frame) = (Frame.get? name frame).map f := by
  induction frame with
  | nil => rfl
  | cons entry rest ih =>
      obtain ⟨key, value⟩ := entry
      show List.lookup name ((key, f value) :: _) = (List.lookup name ((key, value) :: rest)).map f
      rw [List.lookup_cons, List.lookup_cons]
      cases name == key with
      | true => rfl
      | false => exact ih

theorem lookup_map (f : α → β) (name : String) (scope : Scope α) :
    (scope.map f).lookup name = (scope.lookup name).map f := by
  rw [lookup, lookup, frames_map, List.findSome?_map, List.map_findSome?]
  exact congrArg (scope.frames.findSome? ·) (funext (get?_map f name))

end Scope

/-! ## Variables -/

/-- A declared variable. -/
structure Variable where
  /-- Where it is declared. -/
  site : Site
  /-- How many declarations of its spelling there are up to this one. -/
  count : Nat
deriving DecidableEq, Inhabited

/-- The name that tells the variable apart. -/
def Variable.name (program : Program) (var : Variable) : String :=
  Resolver.nameOf (program.text var.site) var.count

/-- What is known at one point of the walk: the variables in scope, all variables so far, and the
variables of the occurrences met so far. -/
structure Binder where
  scope : Scope Variable
  /-- The latest first. -/
  declared : List Variable
  owners : List (Site × Variable)
deriving Inhabited

namespace Binder

/-- Nothing declared yet. -/
def start : Binder :=
  ⟨Scope.empty, [], []⟩

/-- How often a spelling was declared. -/
def count (program : Program) (spelling : String) (binder : Binder) : Nat :=
  binder.declared.countP fun var => program.text var.site = spelling

/-- The variable of an occurrence. -/
def owner? (binder : Binder) (site : Site) : Option Variable :=
  binder.owners.lookup site

/-- Takes a step. -/
def take (program : Program) (binder : Binder) : Step → Binder
  | .push => { binder with scope := binder.scope.push }
  | .pop => { binder with scope := binder.scope.pop }
  | .declare site =>
    let spelling := program.text site
    let var := ⟨site, binder.count program spelling + 1⟩
    ⟨binder.scope.bind spelling var, var :: binder.declared,
      (site, var) :: binder.owners⟩
  | .resolve site =>
    match binder.scope.lookup (program.text site) with
    | some var => { binder with owners := (site, var) :: binder.owners }
    | none => binder

variable {program : Program} {binder : Binder} {resolver : Resolver}

theorem owner?_cons_self (site : Site) (var : Variable) (scope : Scope Variable)
    (declared : List Variable) (owners : List (Site × Variable)) :
    (Binder.mk scope declared ((site, var) :: owners)).owner? site = some var :=
  List.lookup_cons_self

theorem owner?_cons_of_ne {site other : Site} (h : other ≠ site) (var : Variable)
    (scope : Scope Variable) (declared : List Variable) (owners : List (Site × Variable)) :
    (Binder.mk scope declared ((site, var) :: owners)).owner? other = owners.lookup other := by
  have hne : (other == site) = false := by simpa using h
  rw [owner?, List.lookup_cons, hne]

/-- The names are those of the variables. -/
structure Matches (program : Program) (binder : Binder) (resolver : Resolver) : Prop where
  scope : resolver.scope = binder.scope.map (Variable.name program)
  counts : ∀ spelling, resolver.count spelling = binder.count program spelling
  names : ∀ site, resolver.names.get? site = (binder.owner? site).map (Variable.name program)

theorem matches_start : Matches program start Resolver.start where
  scope := rfl
  counts := fun _ => rfl
  names := fun _ => rfl

/-- Naming a site after a variable. -/
theorem Matches.insert (h : Matches program binder resolver) (site : Site) (var : Variable)
    (scope : Scope Variable) (declared : List Variable) (other : Site) :
    (resolver.names.insert site (var.name program)).get? other =
      ((Binder.mk scope declared ((site, var) :: binder.owners)).owner? other).map
        (Variable.name program) := by
  by_cases hother : other = site
  · subst hother
    rw [Names.get?_insert_self, owner?_cons_self, Option.map_some]
  · rw [Names.get?_insert_of_ne hother, owner?_cons_of_ne hother, h.names]
    rfl

theorem Matches.take (h : Matches program binder resolver) (step : Step) :
    Matches program (binder.take program step) (resolver.take program step) := by
  cases step with
  | push => exact ⟨by rw [Resolver.take, Resolver.push, h.scope]; rfl, h.counts, h.names⟩
  | pop =>
      refine ⟨?_, h.counts, h.names⟩
      rw [Resolver.take, Resolver.pop, h.scope, ← Scope.map_pop]
      rfl
  | declare site =>
      have hcount := h.counts (program.text site)
      refine ⟨?_, ?_, ?_⟩
      · rw [Resolver.take, Resolver.declare, h.scope, hcount]
        rfl
      · intro spelling
        rw [Resolver.take, Resolver.declare, Binder.take, Binder.count, Resolver.count,
          List.lookup_cons, List.countP_cons]
        by_cases heq : spelling = program.text site
        · subst heq
          simp [hcount, Binder.count]
        · have hne : (spelling == program.text site) = false := by simpa using heq
          have hne' : ¬ program.text site = spelling := fun h => heq h.symm
          simp only [hne, hne', decide_false, Bool.false_eq_true, if_false, Nat.add_zero]
          exact h.counts spelling
      · intro other
        rw [Resolver.take, Resolver.declare, hcount]
        exact h.insert site ⟨site, binder.count program (program.text site) + 1⟩ _ _ other
  | resolve site =>
      rw [Resolver.take, Resolver.resolve, h.scope, Scope.lookup_map, Binder.take]
      cases hlookup : binder.scope.lookup (program.text site) with
      | none => exact h
      | some var => exact ⟨rfl, h.counts, h.insert site var _ _⟩

theorem Matches.foldl (h : Matches program binder resolver) (steps : List Step) :
    Matches program (steps.foldl (Binder.take program) binder)
      (steps.foldl (Resolver.take program) resolver) := by
  induction steps generalizing binder resolver with
  | nil => exact h
  | cons step rest ih => exact ih (h.take step)

end Binder

namespace Program

/-- What is known at the end of the walk. -/
def binder (program : Program) : Binder :=
  program.steps.foldl (Binder.take program) Binder.start

/-- The name of an occurrence is that of its variable. -/
theorem get?_names (program : Program) (site : Site) :
    program.names.get? site = (program.binder.owner? site).map (Variable.name program) := by
  rw [names_eq_foldl]
  exact (Binder.matches_start.foldl program.steps).names site

end Program

end DefUse
