/-
# `Proofs.Dependency.Agreement` — the scopes of two walks

An assignment to a variable that is not in scope is passed over by the lexical walk, and
gets no name from the renaming walk.  The two walks have scopes of their own, which are
compared here.

`Agrees` says of two scopes that frame by frame the same spellings are bound, the
parameters of a function aside, which the renaming walk alone knows.  `Covers` says of a
part of a program that the scopes agree after it, if they did before, and that the lexical
walk is right about the assignments in it: it passes over those whose target has no name,
or that of a parameter (`Program.Unseen`).

Declarations are taken as wholes, since the lexical walk binds the variables without a
value first, whatever their place.
-/
import DefUse.Proofs.Dependency.Lexical
import DefUse.Proofs.Effect.Origin
import DefUse.Proofs.Names.Grammar
import DefUse.Proofs.Scope

namespace DefUse

open DefUse.Tree
open DefUse.Names

/-! ## Variables that are no parameters -/

namespace Program

/-- Is the variable declared in the body, not as a parameter? -/
def isLocal (program : Program) (var : Variable) : Bool :=
  !(program.parameters.map Node.site).contains var.site

/-- The occurrence has no name, or that of a parameter. -/
def Unseen (program : Program) (site : Site) : Prop :=
  program.names.get? site = none ∨
    ∃ parameter ∈ program.parameters, program.declarationOf? site = some parameter.site

variable {program : Program} {binder : Binder} {rest taken : List Step}

theorem unseen_iff {site : Site} :
    program.Unseen site ↔ (program.binder.owner? site).any program.isLocal = false := by
  rw [Unseen, get?_names, declarationOf?]
  cases program.binder.owner? site with
  | none => simp
  | some var =>
      rw [Option.map_some, Option.map_some, Option.any_some, isLocal, Bool.not_eq_false',
        List.contains_iff_mem, List.mem_map]
      simp only [reduceCtorEq, false_or, Option.some.injEq, eq_comm]

/-- The walk comes to this state after all parameters are declared. -/
structure Inside (program : Program) (binder : Binder) (rest : List Step) : Prop where
  stage : program.Stage binder rest
  parameters : ∀ parameter ∈ program.parameters,
    parameter.site ∈ binder.declared.map Variable.site

theorem Inside.advance (h : program.Inside binder (taken ++ rest)) :
    program.Inside (taken.foldl (Binder.take program) binder) rest where
  stage := h.stage.advance
  parameters := fun parameter hparameter =>
    ((Binder.declared_suffix taken binder).map Variable.site).subset
      (h.parameters parameter hparameter)

/-- What is declared now is no parameter. -/
theorem Inside.isLocal (hroles : program.SingleRoles) {site : Site}
    (h : program.Inside binder (.declare site :: rest)) (count : Nat) :
    program.isLocal ⟨site, count⟩ = true := by
  have hnext : program.Stage ([Step.declare site].foldl (Binder.take program) binder) rest :=
    Stage.advance h.stage
  obtain ⟨hnew, -⟩ := List.nodup_cons.mp (hnext.nodup_sites hroles)
  rw [Program.isLocal, Bool.not_eq_true', ← Bool.not_eq_true, List.contains_iff_mem]
  intro hmem
  obtain ⟨parameter, hparameter, rfl⟩ := List.mem_map.mp hmem
  exact hnew (h.parameters parameter hparameter)

end Program

/-! ## Binding several names -/

/-- The innermost frame binds these names besides those it bound, and all other frames are as
before.  Only values with `P` count. -/
structure Scope.Binds {α : Type} (P : α → Bool) (names : List String) (before after : Scope α) :
    Prop where
  outer : after.outer = before.outer
  inner : ∀ name, (Frame.get? name after.inner).any P =
    (names.contains name || (Frame.get? name before.inner).any P)
  entries : ∀ entry ∈ after.inner, P entry.2 = true ∨ entry ∈ before.inner

namespace Scope.Binds

variable {α : Type} {P : α → Bool} {names more : List String} {before middle after : Scope α}

theorem refl (scope : Scope α) : Binds P [] scope scope where
  outer := rfl
  inner := fun _ => rfl
  entries := fun _ h => .inr h

theorem bind {value : α} (hvalue : P value = true) (name : String) (scope : Scope α) :
    Binds P [name] scope (scope.bind name value) where
  outer := rfl
  inner := by
    intro key
    change (Frame.get? key (Frame.bind name value scope.inner)).any P = _
    by_cases hkey : key = name
    · subst hkey
      rw [Frame.get?_bind_self, Option.any_some, hvalue]
      simp
    · rw [Frame.get?_bind_of_ne hkey]
      simp [hkey]
  entries := by
    intro entry hentry
    rcases List.mem_cons.mp hentry with rfl | hentry
    · exact .inl hvalue
    · exact .inr hentry

theorem trans (h : Binds P names before middle) (h' : Binds P more middle after) :
    Binds P (names ++ more) before after where
  outer := h'.outer.trans h.outer
  inner := by
    intro name
    rw [h'.inner, h.inner, ← Bool.or_assoc, Bool.or_comm (more.contains name)]
    simp
  entries := by
    intro entry hentry
    rcases h'.entries entry hentry with hvalue | hentry
    · exact .inl hvalue
    · exact h.entries entry hentry

end Scope.Binds

namespace LexicalWalk

variable (program : Program)

/-! ## Scopes that agree -/

/-- Frame by frame, the spellings that the lexical walk has bound are those of the variables that
are no parameters.  Only the outermost frame holds parameters. -/
structure Agrees (values : Scope (Option Assignment)) (scope : Scope Variable) : Prop where
  bound : Scope.Related (fun value var => value.isSome = var.any program.isLocal) values scope
  inner : ∀ frame ∈ scope.frames.dropLast, ∀ entry ∈ frame, program.isLocal entry.2 = true

variable {program} {values next : Scope (Option Assignment)} {scope after : Scope Variable}

theorem Agrees.push (h : Agrees program values scope) : Agrees program values.push scope.push where
  bound := h.bound.push rfl
  inner := by
    intro frame hframe
    rcases List.mem_cons.mp hframe with rfl | hframe
    · exact List.forall_mem_nil _
    · exact h.inner frame hframe

theorem Agrees.pop (h : Agrees program values scope) : Agrees program values.pop scope.pop where
  bound := h.bound.pop
  inner := by
    intro frame hframe
    refine h.inner frame ?_
    obtain ⟨inner, outer⟩ := scope
    cases outer with
    | nil => exact hframe
    | cons next rest => exact List.mem_cons_of_mem _ hframe

/-- A spelling is bound for the lexical walk if it stands for a variable that is no parameter. -/
theorem Agrees.lookup (h : Agrees program values scope) (name : String) :
    (values.lookup name).isSome = (scope.lookup name).any program.isLocal := by
  refine h.bound.lookup rfl ?_ name
  intro frame hframe name value hvalue
  rw [hvalue]
  cases hget : Frame.get? name frame with
  | none => rfl
  | some var => exact h.inner frame hframe _ (Binder.mem_of_lookup hget)

theorem Agrees.assign (h : Agrees program values scope) {name : String} {value : Option Assignment}
    (hassign : values.assign? name value = some next) : Agrees program next scope :=
  ⟨h.bound.assign (fun hsame hbound => hsame.trans hbound) hassign, h.inner⟩

/-- Both scopes bind the same names, in whatever order. -/
theorem Agrees.binds (h : Agrees program values scope) {names names' : List String}
    (hvalues : Scope.Binds (fun _ => true) names values next)
    (hscope : Scope.Binds program.isLocal names' scope after)
    (hsame : ∀ name, name ∈ names ↔ name ∈ names') : Agrees program next after := by
  have hany : ∀ value : Option (Option Assignment), value.any (fun _ => true) = value.isSome := by
    intro value
    cases value <;> rfl
  have hcontains : ∀ name, names.contains name = names'.contains name := by
    intro name
    rw [Bool.eq_iff_iff, List.contains_iff_mem, List.contains_iff_mem, hsame]
  obtain ⟨hbound, hlocal⟩ := h
  obtain ⟨inner, outer⟩ := values
  obtain ⟨inner', outer'⟩ := scope
  cases hbound with
  | cons hframe houter =>
      constructor
      · refine .cons (fun name => ?_) ?_
        · have hold : (Frame.get? name inner).isSome = _ := hframe name
          show (Frame.get? name next.inner).isSome = (Frame.get? name after.inner).any _
          rw [← hany, hvalues.inner, hscope.inner, hany, hold, hcontains]
        · rw [hvalues.outer, hscope.outer]
          exact houter
      · intro frame hmem entry hentry
        rw [Scope.frames, hscope.outer] at hmem
        cases outer' with
        | nil => cases hmem
        | cons first rest =>
            rcases List.mem_cons.mp hmem with rfl | hmem
            · rcases hscope.entries entry hentry with hnew | hold
              · exact hnew
              · exact hlocal _ List.mem_cons_self entry hold
            · exact hlocal frame (List.mem_cons_of_mem _ hmem) entry hentry

/-! ## Assignments that are passed over -/

variable (program) in
/-- The assignment is reported and changes nothing else. -/
def Skips (walk : LexicalWalk) (assignment : Assignment) : Prop :=
  walk.write program assignment = { walk with
    events := walk.events ++
      [.undeclaredName (program.text assignment.target) assignment.target.line] }

variable {walk : LexicalWalk} {assignment : Assignment}

theorem skips_iff_lookup (hkind : assignment.kind ≠ .declaration) : Skips program walk assignment ↔
    walk.scope.lookup (program.text assignment.target) = none := by
  rw [← Scope.assign?_eq_none, Skips, LexicalWalk.write, if_neg hkind]
  cases hassign : walk.scope.assign? (program.text assignment.target) (some assignment) with
  | none => simp
  | some scope =>
      simp only [reduceCtorEq, iff_false]
      intro heq
      have hevents := congrArg (List.length ∘ LexicalWalk.events) heq
      simp at hevents

theorem Agrees.write (h : Agrees program walk.scope scope)
    (hkind : assignment.kind ≠ .declaration) :
    Agrees program (walk.write program assignment).scope scope := by
  rw [LexicalWalk.write, if_neg hkind]
  split
  · rename_i next hassign
    exact h.assign hassign
  · exact h

/-- The walk is right about an assignment whose target belongs to the variable in view. -/
theorem Agrees.skips_iff (h : Agrees program walk.scope scope)
    (hkind : assignment.kind ≠ .declaration)
    (howner : program.binder.owner? assignment.target =
      scope.lookup (program.text assignment.target)) :
    Skips program walk assignment ↔ program.Unseen assignment.target := by
  rw [skips_iff_lookup hkind, Program.unseen_iff, howner, ← h.lookup, Option.isSome_eq_false_iff,
    Option.isNone_iff_eq_none]

variable (program) in
/-- From the state `walk` on, all assignments among the moves are passed over if and only if the
target is unseen. -/
def Right (walk : LexicalWalk) (moves : List Move) : Prop :=
  ∀ front assignment back, moves = front ++ .act (.write assignment) :: back →
    assignment.kind ≠ .declaration →
    (Skips program (front.foldl (take program) walk) assignment ↔
      program.Unseen assignment.target)

variable {moves more : List Move}

theorem right_nil : Right program walk [] := by
  intro front assignment back heq
  simp at heq

theorem Right.cons {move : Move}
    (hfirst : ∀ assignment, move = .act (.write assignment) → assignment.kind ≠ .declaration →
      (Skips program walk assignment ↔ program.Unseen assignment.target))
    (hrest : Right program (walk.take program move) moves) :
    Right program walk (move :: moves) := by
  intro front assignment back heq hkind
  cases front with
  | nil =>
      obtain ⟨rfl, -⟩ := List.cons.inj heq
      exact hfirst assignment rfl hkind
  | cons first front =>
      obtain ⟨rfl, hmoves⟩ := List.cons.inj heq
      exact hrest front assignment back hmoves hkind

theorem right_of_declarations
    (h : ∀ assignment, .act (.write assignment) ∈ moves → assignment.kind = .declaration) :
    Right program walk moves := by
  rintro front assignment back rfl hkind
  exact absurd (h assignment (List.mem_append_right _ List.mem_cons_self)) hkind

theorem Right.append (h : Right program walk moves)
    (h' : Right program (moves.foldl (take program) walk) more) :
    Right program walk (moves ++ more) := by
  intro front assignment back heq hkind
  rcases List.append_eq_append_iff.mp heq with ⟨inner, rfl, hmore⟩ | ⟨inner, hmoves, hback⟩
  · rw [List.foldl_append]
    exact h' inner assignment back hmore hkind
  · cases inner with
    | nil =>
        rw [List.append_nil] at hmoves
        subst hmoves
        exact h' [] assignment back hback.symm hkind
    | cons move inner =>
        obtain ⟨rfl, -⟩ := List.cons.inj hback
        exact h front assignment inner hmoves hkind

/-! ## Parts of a program -/

variable (program) in
/-- If the scopes agree before the part, then they do after it, and the walk is right about all
assignments in it. -/
def Covers (moves : List Move) (taken : List Step) : Prop :=
  ∀ (rest : List Step) (binder : Binder) (walk : LexicalWalk),
    program.Inside binder (taken ++ rest) → Agrees program walk.scope binder.scope →
    Agrees program (moves.foldl (take program) walk).scope
      (taken.foldl (Binder.take program) binder).scope ∧ Right program walk moves

variable {taken steps : List Step}

theorem covers_of_keeps (h : Keeps program taken) : Covers program [] taken := by
  intro rest binder walk _ hagrees
  refine ⟨?_, right_nil⟩
  rw [h]
  exact hagrees

theorem covers_push : Covers program [.push] [.push] :=
  fun _ _ _ _ hagrees => ⟨hagrees.push, right_nil.cons fun _ h => nomatch h⟩

theorem covers_pop : Covers program [.pop] [.pop] :=
  fun _ _ _ _ hagrees => ⟨hagrees.pop, right_nil.cons fun _ h => nomatch h⟩

theorem Covers.append (h : Covers program moves taken) (h' : Covers program more steps) :
    Covers program (moves ++ more) (taken ++ steps) := by
  intro rest binder walk hinside hagrees
  rw [List.append_assoc] at hinside
  obtain ⟨hagrees', hright⟩ := h _ binder walk hinside hagrees
  obtain ⟨hagrees'', hright'⟩ := h' rest _ _ hinside.advance hagrees'
  rw [List.foldl_append, List.foldl_append]
  exact ⟨hagrees'', hright.append hright'⟩

/-- Two parts that leave the scope as it was may be passed in either order. -/
theorem Covers.swap (h : Covers program moves taken) (h' : Covers program more steps)
    (hkeeps : Keeps program taken) (hkeeps' : Keeps program steps) :
    Covers program (more ++ moves) (taken ++ steps) := by
  intro rest binder walk hinside hagrees
  rw [List.append_assoc] at hinside
  obtain ⟨hagrees', hright'⟩ := h' rest _ walk hinside.advance (by rw [hkeeps]; exact hagrees)
  rw [hkeeps', hkeeps] at hagrees'
  obtain ⟨hagrees'', hright⟩ := h _ binder _ hinside hagrees'
  rw [List.foldl_append, List.foldl_append, hkeeps']
  exact ⟨hagrees'', hright'.append hright⟩

/-- Reads and writes, of variables that are looked up in the meantime. -/
theorem covers_accesses (hroles : program.SingleRoles) (hkeeps : Keeps program taken)
    {actions : List Action} (hmet : ∀ assignment, .write assignment ∈ actions →
      assignment.kind ≠ .declaration ∧ Meets program taken [.resolve assignment.target]) :
    Covers program (actions.map .act) taken := by
  intro rest binder walk hinside hagrees
  rw [hkeeps]
  induction actions generalizing walk with
  | nil => exact ⟨hagrees, right_nil⟩
  | cons action others ih =>
      have hothers := fun assignment hmem => hmet assignment (List.mem_cons_of_mem _ hmem)
      cases action with
      | read site =>
          obtain ⟨hagrees', hright⟩ := ih hothers (walk.take program (.act (.read site))) hagrees
          exact ⟨hagrees', hright.cons fun _ h => nomatch h⟩
      | write assignment =>
          obtain ⟨hkind, hmeets⟩ := hmet assignment List.mem_cons_self
          obtain ⟨hagrees', hright⟩ := ih hothers (walk.take program (.act (.write assignment)))
            (hagrees.write hkind)
          refine ⟨hagrees', hright.cons ?_⟩
          rintro _ ⟨⟩ _
          exact hagrees.skips_iff hkind (hinside.stage.owner?_of_meets hroles hmeets)

/-- An expression that is only read. -/
theorem covers_expression (hroles : program.SingleRoles) (hkeeps : Keeps program taken)
    {node : Option Node} {found : List Move} (h : expressionMoves node = .ok found) :
    Covers program found taken := by
  obtain ⟨sites, -, h⟩ := exists_of_bind_eq_ok h
  cases h
  rw [← Function.comp_def Move.act, ← List.map_map]
  refine covers_accesses hroles hkeeps fun assignment hmem => ?_
  obtain ⟨site, -, heq⟩ := List.mem_map.mp hmem
  cases heq

/-- A statement that declares nothing. -/
theorem covers_simple (hroles : program.SingleRoles) {node : Node} {found : List Move}
    (h : simpleMoves node = .ok found) (hnone : declares node = false)
    (hnamed : ∀ other ∈ node.nodes, other.RoleNamed) :
    Covers program found (Names.steps node) := by
  obtain ⟨effects, heffects, h⟩ := exists_of_bind_eq_ok h
  cases h
  refine covers_accesses hroles (keeps_steps node hnone) fun assignment hmem => ?_
  obtain ⟨effect, heffect, hmem⟩ := List.mem_flatMap.mp hmem
  have hwrite : effect.write = some assignment := by
    simpa [Effect.actions] using hmem
  obtain ⟨part, hpart, hmade, hpasses⟩ :=
    effects_madeBy program (isDeclaration_eq_false hnone) heffects effect heffect
  obtain ⟨hmeets, hinner⟩ := hpasses hnone
  have hbelow := (Node.sublist_of_mem_nodes hpart).subset
  obtain ⟨hkind, htarget⟩ := hmade.meets_target (fun child hchild =>
    hnamed child (hbelow (Node.mem_nodes hchild))) hinner hwrite
  exact ⟨hkind, hmeets.trans htarget⟩

/-! ## Declarations -/

variable (program) in
/-- The spellings of several variables. -/
def spellings (names : List Node) : List String :=
  names.map fun name => program.text name.site

/-- The variable that a declarator gives a value. -/
def valued? (declarator : Node) : Option Node :=
  (declarator.field? .value).bind fun _ => declarator.field? .name

variable (program) in
theorem binds_blanks (names : List Node) (walk : LexicalWalk) :
    Scope.Binds (fun _ => true) (spellings program names) walk.scope
      ((names.map fun name => Move.blank name.site).foldl (take program) walk).scope := by
  induction names generalizing walk with
  | nil => exact .refl _
  | cons name rest ih =>
      exact (Scope.Binds.bind rfl (program.text name.site) walk.scope).trans
        (ih (walk.take program (.blank name.site)))

variable (program) in
theorem scope_foldl_reads (sites : List Site) (walk : LexicalWalk) :
    ((sites.map fun site => Move.act (.read site)).foldl (take program) walk).scope =
      walk.scope := by
  induction sites generalizing walk with
  | nil => rfl
  | cons site rest ih => exact ih (walk.read program site)

variable (program) in
theorem binds_declarator {declarator : Node} {effect : Effect}
    (hkind : declarator.kind = .variableDeclarator)
    (h : Effect.ofDeclarator declarator = .ok effect) (walk : LexicalWalk) :
    Scope.Binds (fun _ => true) (spellings program (valued? declarator).toList) walk.scope
      ((effect.actions.map .act).foldl (take program) walk).scope := by
  obtain ⟨-, -, hwrite⟩ := Effect.ofDeclarator_eq_ok hkind h
  have hreads := scope_foldl_reads program effect.reads walk
  rw [Effect.actions, List.map_append, List.foldl_append, List.map_map, hwrite, valued?, ← hreads]
  cases declarator.field? .value with
  | none => exact .refl _
  | some value =>
      cases declarator.field? .name with
      | none => exact .refl _
      | some name => exact .bind rfl (program.text name.site) _

variable (program) in
/-- The declarators with a value bind their variables. -/
theorem binds_declarators {nodes : List Node} {found : List Effect}
    (hkinds : ∀ declarator ∈ nodes, declarator.kind = .variableDeclarator)
    (h : nodes.mapM Effect.ofDeclarator = .ok found) (walk : LexicalWalk) :
    Scope.Binds (fun _ => true) (spellings program (nodes.filterMap valued?)) walk.scope
      (((found.flatMap Effect.actions).map .act).foldl (take program) walk).scope := by
  induction nodes generalizing found walk with
  | nil =>
      cases h
      exact .refl _
  | cons declarator rest ih =>
      rw [List.mapM_cons] at h
      obtain ⟨effect, heffect, h⟩ := exists_of_bind_eq_ok h
      obtain ⟨others, hothers, h⟩ := exists_of_bind_eq_ok h
      cases h
      obtain ⟨hkind, hrest⟩ := List.forall_mem_cons.mp hkinds
      have hnames : spellings program ((declarator :: rest).filterMap valued?) =
          spellings program (valued? declarator).toList ++
            spellings program (rest.filterMap valued?) := by
        rw [List.filterMap_cons]
        cases valued? declarator <;> rfl
      rw [List.flatMap_cons, List.map_append, List.foldl_append, hnames]
      exact (binds_declarator program hkind heffect walk).trans (ih hrest hothers _)

/-- The renaming walk binds the variables of all declarators. -/
theorem binds_stepsDeclarator (hroles : program.SingleRoles) {nodes : List Node}
    (hvalues : ∀ declarator ∈ nodes, ∀ value ∈ declarator.field? .value, declares value = false)
    (hnames : ∀ declarator ∈ nodes, ∀ name ∈ declarator.field? .name, name.kind = .identifier)
    {rest : List Step} {binder : Binder}
    (hinside : program.Inside binder (nodes.flatMap stepsDeclarator ++ rest)) :
    Scope.Binds program.isLocal (spellings program (nodes.filterMap (Node.field? .name)))
      binder.scope ((nodes.flatMap stepsDeclarator).foldl (Binder.take program) binder).scope := by
  induction nodes generalizing binder with
  | nil => exact .refl _
  | cons declarator others ih =>
      obtain ⟨hvalue, hvalues⟩ := List.forall_mem_cons.mp hvalues
      obtain ⟨hname, hnames⟩ := List.forall_mem_cons.mp hnames
      have hkeeps : Keeps program (((declarator.field? .value).map Names.steps).getD []) := by
        cases hfield : declarator.field? .value with
        | none => exact keeps_nil
        | some value => exact keeps_steps value (hvalue value hfield)
      rw [List.flatMap_cons, stepsDeclarator_eq, List.append_assoc, List.append_assoc] at hinside
      rw [List.flatMap_cons, stepsDeclarator_eq, List.foldl_append, List.foldl_append]
      have hdeclare := hinside.advance
      rw [List.filterMap_cons, ← hkeeps binder]
      cases hfield : declarator.field? .name with
      | none =>
          rw [hfield] at hdeclare
          exact ih hvalues hnames hdeclare
      | some name =>
          rw [hfield] at hdeclare
          rw [Option.map_some, Option.getD_some, stepsName,
            if_pos (hname name hfield)] at hdeclare ⊢
          exact Scope.Binds.trans (.bind (hdeclare.isLocal hroles _) (program.text name.site) _)
            (ih hvalues hnames hdeclare.advance)

/-- The variables without a value and those with one are all variables. -/
theorem mem_spellings {node : Node} (name : String) :
    name ∈ spellings program (uninitialized node) ++
        spellings program ((declarators node).filterMap valued?) ↔
      name ∈ spellings program ((declarators node).filterMap (Node.field? .name)) := by
  rw [spellings, spellings, spellings, ← List.map_append, List.mem_map, List.mem_map]
  have hmem : ∀ part, part ∈ uninitialized node ++ (declarators node).filterMap valued? ↔
      part ∈ (declarators node).filterMap (Node.field? .name) := by
    intro part
    rw [List.mem_append, uninitialized, List.mem_filterMap, List.mem_filterMap, List.mem_filterMap]
    constructor
    · rintro (⟨declarator, hdeclarator, hname⟩ | ⟨declarator, hdeclarator, hname⟩)
      · exact ⟨declarator, List.mem_of_mem_filter hdeclarator, hname⟩
      · obtain ⟨value, -, hname⟩ := Option.bind_eq_some_iff.mp hname
        exact ⟨declarator, hdeclarator, hname⟩
    · rintro ⟨declarator, hdeclarator, hname⟩
      cases hvalue : declarator.field? .value with
      | none => exact .inl ⟨declarator, List.mem_filter.mpr ⟨hdeclarator, by simp [hvalue]⟩, hname⟩
      | some value => exact .inr ⟨declarator, hdeclarator, by rw [valued?, hvalue]; exact hname⟩
  simp only [hmem]

/-- A declaration binds the same names in both walks. -/
theorem covers_declaration (hroles : program.SingleRoles) {node : Node} {found : List Move}
    (hdeclaration : isDeclaration node = true) (h : declarationMoves node = .ok found)
    (hregular : ∀ declarator ∈ declarators node, declarator.Regular) :
    Covers program found (Names.steps node) := by
  obtain ⟨blanks, part, hblanks, hpart, rfl⟩ := Moves.andThen_eq_ok.mp h
  obtain ⟨effects, heffects, hpart⟩ := exists_of_bind_eq_ok hpart
  cases hblanks
  cases hpart
  rw [effects_of_isDeclaration hdeclaration] at heffects
  rw [steps_of_isDeclaration hdeclaration]
  intro rest binder walk hinside hagrees
  constructor
  · have hvalues := (binds_blanks program (uninitialized node) walk).trans
      (binds_declarators program (fun _ h => (mem_declarators h).2) heffects _)
    rw [← List.foldl_append] at hvalues
    refine hagrees.binds hvalues (binds_stepsDeclarator hroles ?_ ?_ hinside) ?_
    · intro declarator hdeclarator value hvalue
      exact (hregular declarator hdeclarator).declares_field? rfl hvalue
    · intro declarator hdeclarator
      obtain ⟨effect, heffect⟩ := exists_mapM_iff.mp ⟨_, heffects⟩ declarator hdeclarator
      exact (Effect.ofDeclarator_eq_ok (mem_declarators hdeclarator).2 heffect).1
    · exact mem_spellings
  · refine right_of_declarations fun assignment hmem => ?_
    have hwrite : .write assignment ∈ effects.flatMap Effect.actions := by simpa using hmem
    obtain ⟨effect, heffect, hwrite⟩ := List.mem_flatMap.mp hwrite
    have hwrite : effect.write = some assignment := by simpa [Effect.actions] using hwrite
    obtain ⟨declarator, hdeclarator, hmade⟩ := exists_of_mem_mapM heffects heffect
    exact Effect.declaration_of_ofDeclarator (mem_declarators hdeclarator).2 hmade hwrite

end LexicalWalk

end DefUse
