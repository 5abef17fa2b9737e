/-
# `Proofs.Dependency.Tracking` — three walks side by side

The lexical walk knows variables by their spelling, in frames that are opened and closed;
the flow analysis knows them by their name, in one flat list of definitions.  What ties
them together is the renaming walk: its scope says which variable a spelling stands for.
`Tracks` says that the lexical walk has, for every spelling in every frame, the definition
of the name of that variable, and has noted the same reads.

This is kept by a read (`Tracks.read`), by a write (`Tracks.write`) and by a declaration
(`Tracks.declare`), as long as different variables have different names
(`Program.NamesApart`): otherwise the definition of one would be taken for that of another.
A frame that is closed is forgotten by one side only, which does no harm, since nothing
stands for its variables any more.

`Follows` puts this together for whole parts of a program: the moves of the one walk keep
pace with the steps of the other.
-/
import DefUse.Proofs.Dependency.Lexical
import DefUse.Proofs.Effect.Origin
import DefUse.Proofs.Scope

namespace DefUse

open DefUse.Tree
open DefUse.Names
open scoped List

/-! ## Definitions, one for each name -/

namespace Definitions

variable {definitions : Definitions} {name other : String} {assignment : Assignment}

/-- No name is defined twice. -/
def Single (definitions : Definitions) : Prop :=
  (definitions.map Prod.fst).Nodup

theorem lookup_define_self : (definitions.define name assignment).lookup name = some assignment :=
  List.lookup_cons_self

theorem lookup_define_of_ne (h : other ≠ name) :
    (definitions.define name assignment).lookup other = definitions.lookup other := by
  have hne : (other == name) = false := by simpa using h
  rw [define, List.lookup_cons, hne]
  exact Names.lookup_filter_ne h definitions

theorem Single.define (h : definitions.Single) (name : String) (assignment : Assignment) :
    (definitions.define name assignment).Single := by
  refine List.nodup_cons.mpr ⟨?_, h.sublist (List.filter_sublist.map _)⟩
  intro hmem
  obtain ⟨definition, hdefinition, heq⟩ := List.mem_map.mp hmem
  simpa [heq] using (List.mem_filter.mp hdefinition).2

/-- What reaches a read is the one definition of its name. -/
theorem Single.reaching (h : definitions.Single) (name : String) :
    definitions.reaching name = (definitions.lookup name).toList := by
  have hfilter : definitions.filter (fun definition => definition.1 = name) =
      ((definitions.lookup name).map (Prod.mk name)).toList := by
    induction definitions with
    | nil => rfl
    | cons definition rest ih =>
        obtain ⟨key, value⟩ := definition
        obtain ⟨hnew, hrest⟩ := List.nodup_cons.mp h
        rw [List.filter_cons, List.lookup_cons, ih hrest]
        by_cases hkey : key = name
        · subst hkey
          have hnone : rest.lookup key = none := by
            rw [List.lookup_eq_none_iff]
            intro entry hentry
            have hne : key ≠ entry.1 := by
              rintro rfl
              exact hnew (List.mem_map.mpr ⟨entry, hentry, rfl⟩)
            simpa using hne
          simp [hnone]
        · have hne : (name == key) = false := by simpa using Ne.symm hkey
          simp [hkey, hne]
  rw [Definitions.reaching, hfilter]
  cases definitions.lookup name <;> rfl

end Definitions

/-! ## Variables in scope -/

namespace Binder

variable {program : Program} {binder : Binder}

/-- A variable is bound in one place at most. -/
theorem values_sublist (steps : List Step) (binder : Binder)
    (h : binder.scope.values <+ binder.declared) :
    (steps.foldl (take program) binder).scope.values <+
      (steps.foldl (take program) binder).declared := by
  induction steps generalizing binder with
  | nil => exact h
  | cons step rest ih =>
      refine ih (binder.take program step) ?_
      cases step with
      | push => exact h
      | pop =>
          obtain ⟨⟨inner, outer⟩, declared, owners⟩ := binder
          cases outer with
          | nil => exact h
          | cons frame frames =>
              refine List.Sublist.trans ?_ h
              exact (List.sublist_append_right inner _).map _
      | declare site => exact h.cons_cons _
      | resolve site =>
          rw [take]
          cases binder.scope.lookup (program.text site) <;> exact h

end Binder

namespace Program

variable {program : Program} {binder : Binder} {rest : List Step} {var other : Variable}

theorem Stage.values_sublist (h : program.Stage binder rest) :
    binder.scope.values <+ binder.declared := by
  obtain ⟨front, -, rfl⟩ := h
  exact Binder.values_sublist front .start (List.Sublist.refl _)

/-- Different declarations have different names, and none is named like a variable without a
name. -/
structure NamesApart (program : Program) : Prop where
  apart : ∀ site ∈ program.declarations, ∀ other ∈ program.declarations,
    program.names.get? site = program.names.get? other → site = other
  known : ∀ site ∈ program.declarations, program.names.get? site ≠ some unknownName

theorem NamesApart.eq_of_name (h : program.NamesApart) (hroles : program.SingleRoles)
    (hvar : var ∈ program.binder.declared) (hother : other ∈ program.binder.declared)
    (hname : var.name program = other.name program) : var = other := by
  have hsite : var.site = other.site := by
    refine h.apart _ (mem_declarations_of_declared hvar) _ (mem_declarations_of_declared hother) ?_
    rw [get?_names_site hroles hvar, get?_names_site hroles hother, hname]
  have howner := owner?_site hroles hvar
  rw [hsite, owner?_site hroles hother] at howner
  exact (Option.some.inj howner).symm

theorem NamesApart.name_ne (h : program.NamesApart) (hroles : program.SingleRoles)
    (hvar : var ∈ program.binder.declared) : unknownName ≠ var.name program := by
  intro hname
  refine h.known _ (mem_declarations_of_declared hvar) ?_
  rw [get?_names_site hroles hvar, hname]

end Program

/-! ## Keeping pace -/

namespace LexicalWalk

variable (program : Program)

/-- What the lexical walk knows is what the flow analysis knows: the same reads, and for every
spelling in scope the definition of the variable it stands for. -/
structure Tracks (walk : LexicalWalk) (scope : Scope Variable) (passage : Passage) : Prop where
  reads : walk.reads = passage.reads
  scope : Scope.Related
    (fun value var => value = var.map fun var => passage.definitions.lookup (var.name program))
    walk.scope scope
  single : passage.definitions.Single
  unknown : passage.definitions.lookup unknownName = none

variable {program} {walk : LexicalWalk} {binder : Binder} {passage : Passage}

theorem tracks_start : Tracks program .start .empty ⟨[], [], []⟩ where
  reads := rfl
  scope := .cons (fun _ => rfl) .nil
  single := List.nodup_nil
  unknown := rfl

theorem Tracks.lookup (h : Tracks program walk binder.scope passage) (spelling : String) :
    walk.scope.lookup spelling = (binder.scope.lookup spelling).map
      fun var => passage.definitions.lookup (var.name program) := by
  refine h.scope.lookup rfl ?_ spelling
  rintro _ _ name _ rfl
  exact Option.isSome_map

/-- A read depends on the same assignment. -/
theorem Tracks.read (h : Tracks program walk binder.scope passage) {site : Site}
    (howner : program.binder.owner? site = binder.scope.lookup (program.text site)) :
    Tracks program (walk.read program site) binder.scope (passage.read program.names site) := by
  refine ⟨?_, h.scope, h.single, h.unknown⟩
  have hreaching : ((walk.scope.lookup (program.text site)).bind id).toList =
      passage.definitions.reaching (Passage.nameOf program.names site) := by
    rw [h.lookup, h.single.reaching, Passage.nameOf, Program.get?_names, howner]
    cases binder.scope.lookup (program.text site) with
    | none => exact congrArg Option.toList h.unknown.symm
    | some var => rfl
  show walk.reads.record site _ = passage.reads.record site _
  rw [h.reads, hreaching]

/-- A write to a variable becomes its only definition. -/
theorem write_of_owner {var : Variable} {assignment : Assignment}
    (h : program.binder.owner? assignment.target = some var) (passage : Passage) :
    passage.write program program.names assignment =
      { passage with
        definitions := passage.definitions.define (var.name program) assignment } := by
  rw [Passage.write, Program.get?_names, h]
  rfl

section Named

variable {rest : List Step} (hroles : program.SingleRoles) (hnames : program.NamesApart)

include hroles hnames

/-- The definition of a variable says nothing of those with other names. -/
theorem lookup_define {var other : Variable} (hvar : var ∈ program.binder.declared)
    (hother : other ∈ program.binder.declared) (hne : other ≠ var) (assignment : Assignment)
    (definitions : Definitions) :
    (definitions.define (var.name program) assignment).lookup (other.name program) =
      definitions.lookup (other.name program) :=
  Definitions.lookup_define_of_ne fun hname => hne (hnames.eq_of_name hroles hother hvar hname)

/-- A write that is no declaration changes the same variable, if it has one. -/
theorem Tracks.write (h : Tracks program walk binder.scope passage)
    (hstage : program.Stage binder rest) {assignment : Assignment}
    (hkind : assignment.kind ≠ .declaration)
    (howner : program.binder.owner? assignment.target =
      binder.scope.lookup (program.text assignment.target)) :
    Tracks program (walk.write program assignment) binder.scope
      (passage.write program program.names assignment) := by
  rw [LexicalWalk.write, if_neg hkind]
  cases hlookup : binder.scope.lookup (program.text assignment.target) with
  | none =>
      have hnone : walk.scope.assign? (program.text assignment.target) (some assignment) =
          none := by
        rw [Scope.assign?_eq_none, h.lookup, hlookup]
        rfl
      rw [hnone, Passage.write, Program.get?_names, howner, hlookup]
      exact ⟨h.reads, h.scope, h.single, h.unknown⟩
  | some var =>
      have hvalues := hstage.values_sublist
      have hdeclared : ∀ other ∈ binder.scope.values, other ∈ program.binder.declared :=
        fun other hother => hstage.mem_declared (hvalues.subset hother)
      have hvar : var ∈ program.binder.declared :=
        hdeclared var (Scope.mem_values_of_findSome? hlookup)
      cases hassign : walk.scope.assign? (program.text assignment.target) (some assignment) with
      | none =>
          rw [Scope.assign?_eq_none, h.lookup, hlookup] at hassign
          cases hassign
      | some next =>
          rw [write_of_owner (howner.trans hlookup)]
          refine ⟨h.reads, ?_, h.single.define _ _, ?_⟩
          · have hnodup := (hstage.nodup_sites hroles).of_map
            refine h.scope.assign_map (hnodup.sublist hvalues) hlookup ?_ ?_
            · exact fun other hother hne =>
                lookup_define hroles hnames hvar (hdeclared other hother) hne _ _
            · rw [Definitions.lookup_define_self]
              exact hassign
          · rw [Definitions.lookup_define_of_ne (hnames.name_ne hroles hvar)]
            exact h.unknown

/-- A declaration with a value binds a variable with its definition. -/
theorem Tracks.declare (h : Tracks program walk binder.scope passage) {assignment : Assignment}
    (hkind : assignment.kind = .declaration)
    (hstage : program.Stage binder (.declare assignment.target :: rest)) :
    Tracks program (walk.write program assignment)
      (binder.take program (.declare assignment.target)).scope
      (passage.write program program.names assignment) := by
  have hnext : program.Stage ([Step.declare assignment.target].foldl (Binder.take program) binder)
      rest := Program.Stage.advance hstage
  obtain ⟨hnew, -⟩ := List.nodup_cons.mp (hnext.nodup_sites hroles).of_map
  have hvar := hnext.mem_declared List.mem_cons_self
  have howner := Program.owner?_site hroles hvar
  rw [LexicalWalk.write, if_pos hkind, write_of_owner howner]
  refine ⟨h.reads, ?_, h.single.define _ _, ?_⟩
  · refine Scope.Related.bind (h.scope.congr fun other hother => ?_) ?_ _
    · have hdeclared := hstage.values_sublist.subset hother
      refine lookup_define hroles hnames hvar (hstage.mem_declared hdeclared) ?_ _ _
      rintro rfl
      exact hnew hdeclared
    · rw [Option.map_some, Definitions.lookup_define_self]
  · rw [Definitions.lookup_define_of_ne (hnames.name_ne hroles hvar)]
    exact h.unknown

end Named

/-! ## Parts of a program -/

/-- The reads and writes among some moves. -/
def accesses (moves : List Move) : List Action :=
  moves.filterMap fun
    | .act action => some action
    | .push | .pop | .blank _ => none

theorem accesses_append (moves more : List Move) :
    accesses (moves ++ more) = accesses moves ++ accesses more :=
  List.filterMap_append

theorem accesses_map_act (actions : List Action) : accesses (actions.map .act) = actions := by
  rw [accesses, List.filterMap_map]
  exact List.filterMap_some

variable (program) in
/-- The moves keep pace with the steps. -/
def Follows (moves : List Move) (taken : List Step) : Prop :=
  ∀ (rest : List Step) (binder : Binder) (walk : LexicalWalk) (passage : Passage),
    program.Stage binder (taken ++ rest) → Tracks program walk binder.scope passage →
    Tracks program (moves.foldl (take program) walk)
      (taken.foldl (Binder.take program) binder).scope
      ((accesses moves).foldl (Passage.act program program.names) passage)

variable {moves more : List Move} {taken next : List Step}

theorem follows_of_keeps (h : Keeps program taken) : Follows program [] taken := by
  intro rest binder walk passage _ htracks
  rw [h]
  exact htracks

theorem Follows.append (h : Follows program moves taken) (h' : Follows program more next) :
    Follows program (moves ++ more) (taken ++ next) := by
  intro rest binder walk passage hstage htracks
  rw [List.append_assoc] at hstage
  rw [List.foldl_append, List.foldl_append, accesses_append, List.foldl_append]
  exact h' rest _ _ _ hstage.advance (h (next ++ rest) binder walk passage hstage htracks)

theorem follows_push : Follows program [.push] [.push] :=
  fun _ _ _ _ _ htracks => ⟨htracks.reads, htracks.scope.push rfl, htracks.single, htracks.unknown⟩

theorem follows_pop : Follows program [.pop] [.pop] :=
  fun _ _ _ _ _ htracks => ⟨htracks.reads, htracks.scope.pop, htracks.single, htracks.unknown⟩

variable (program) in
/-- The variable of the access is looked up among the steps, with the same variables in view as at
the beginning; and it is not declared there. -/
def Met (taken : List Step) : Action → Prop
  | .read site => Meets program taken [.resolve site]
  | .write assignment =>
    assignment.kind ≠ .declaration ∧ Meets program taken [.resolve assignment.target]

/-- The effects of a statement are made where their variables are looked up, if there is no
declaration in it. -/
theorem met_of_effects {node : Node} {found : List Effect} (h : effects node = .ok found)
    (hplain : ∀ other ∈ node.nodes, isDeclaration other = false)
    (hnamed : ∀ other ∈ node.nodes, other.RoleNamed) :
    ∀ action ∈ found.flatMap Effect.actions, Met program (Names.steps node) action := by
  intro action haction
  obtain ⟨effect, heffect, haction⟩ := List.mem_flatMap.mp haction
  obtain ⟨part, hpart, hmade, hpasses⟩ :=
    effects_madeBy program (hplain node node.mem_nodes_self) h effect heffect
  obtain ⟨hmeets, hnone⟩ := hpasses (declares_eq_false node hplain)
  have hbelow := (Node.sublist_of_mem_nodes hpart).subset
  rcases List.mem_append.mp haction with hread | hwrite
  · obtain ⟨site, hsite, rfl⟩ := List.mem_map.mp hread
    refine hmeets.trans (hmade.meets_read ?_ ?_ hsite)
    · exact fun other hother => hplain other (hbelow hother)
    · exact fun other hother => hnamed other (hbelow hother)
  · obtain ⟨assignment, hassignment, rfl⟩ := List.mem_map.mp hwrite
    obtain ⟨hkind, htarget⟩ := hmade.meets_target (fun child hchild =>
      hnamed child (hbelow (Node.mem_nodes hchild))) hnone (Option.mem_toList.mp hassignment)
    exact ⟨hkind, hmeets.trans htarget⟩

section Named

variable (hroles : program.SingleRoles) (hnames : program.NamesApart)

include hroles hnames

theorem follows_of_met (hkeeps : Keeps program taken) {actions : List Action}
    (hmet : ∀ action ∈ actions, Met program taken action) :
    Follows program (actions.map .act) taken := by
  intro rest binder walk passage hstage htracks
  rw [accesses_map_act, hkeeps]
  induction actions generalizing walk passage with
  | nil => exact htracks
  | cons action others ih =>
      obtain ⟨hfirst, hothers⟩ := List.forall_mem_cons.mp hmet
      refine ih hothers _ _ ?_
      cases action with
      | read site => exact htracks.read (hstage.owner?_of_meets hroles hfirst)
      | write assignment =>
          exact htracks.write hroles hnames hstage hfirst.1
            (hstage.owner?_of_meets hroles hfirst.2)

theorem follows_declare {assignment : Assignment} (hkind : assignment.kind = .declaration) :
    Follows program [.act (.write assignment)] [.declare assignment.target] :=
  fun _ _ _ _ hstage htracks => htracks.declare hroles hnames hkind hstage

end Named

end LexicalWalk

end DefUse
