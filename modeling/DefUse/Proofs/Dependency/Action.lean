/-
# `Proofs.Dependency.Action` — reads and writes in the order in which they happen

What the flow analysis sees of a block is a sequence of *actions*: in one effect the
reads come before the write, in a block the effects come in order, and what the exit
reads comes last.

`LastWrite` says which assignment gave a name its value at the end of a sequence.
The analysis computes it by carrying definitions along (`Definitions.after`), and
`mem_after` says that this is right: after a sequence a name is defined by its last
write in it, or, if there is none, as it was before.
-/
import DefUse.Dependency.Flow
import DefUse.Proofs.Graph.Code
import DefUse.Proofs.Statement

namespace DefUse

open DefUse.Tree

/-- One access to a variable. -/
inductive Action where
  | read (site : Site)
  | write (assignment : Assignment)
deriving DecidableEq

/-! ## The actions of a block -/

/-- The reads of an effect, then its write. -/
def Effect.actions (effect : Effect) : List Action :=
  effect.reads.map .read ++ effect.write.toList.map .write

/-- What a simple statement does; nothing, if it is refused. -/
def statementActions (statement : Node) : List Action :=
  match effects statement with
  | .ok steps => steps.flatMap Effect.actions
  | .error _ => []

/-- What the evaluation of an expression does; nothing, if it is refused. -/
def expressionActions (expression : Node) : List Action :=
  match reads expression with
  | .ok sites => sites.map .read
  | .error _ => []

/-- The actions of the statements, then those of the exit. -/
def Code.actions (code : Code) : List Action :=
  code.statements.flatMap statementActions ++
    code.exit.expression?.toList.flatMap expressionActions

/-- The actions of a block. -/
def Graph.actionsAt (graph : Graph) (id : BlockId) : List Action :=
  match graph.code? id with
  | some code => code.actions
  | none => []

/-- The actions that the analysis goes through in a block. -/
def BlockEffects.actions (effects : BlockEffects) : List Action :=
  effects.steps.flatMap Effect.actions ++ effects.exitReads.map .read

theorem Graph.actionsAt_of_code? {graph : Graph} {id : BlockId} {code : Code}
    (h : graph.code? id = some code) : graph.actionsAt id = code.actions := by
  rw [actionsAt, h]

/-- Effects that are computed are the actions of the block. -/
theorem Block.actions_of_effects {block : Block} {effects : BlockEffects}
    (h : block.effects = .ok effects) : effects.actions = block.code.actions := by
  have hsteps : ∀ (statements : List Node) (steps : List (List Effect)),
      statements.mapM DefUse.effects = .ok steps →
      steps.flatten.flatMap Effect.actions = statements.flatMap statementActions := by
    intro statements
    induction statements with
    | nil =>
        intro steps h
        cases h
        rfl
    | cons statement rest ih =>
        intro steps h
        rw [List.mapM_cons] at h
        obtain ⟨first, hfirst, h⟩ := exists_of_bind_eq_ok h
        obtain ⟨others, hothers, h⟩ := exists_of_bind_eq_ok h
        cases h
        rw [List.flatten_cons, List.flatMap_append, ih others hothers, List.flatMap_cons,
          statementActions, hfirst]
  obtain ⟨steps, hok, h⟩ := exists_of_bind_eq_ok h
  obtain ⟨sites, hsites, h⟩ := exists_of_bind_eq_ok h
  cases h
  rw [BlockEffects.actions, Code.actions, hsteps _ _ hok]
  congr 1
  show sites.map Action.read = block.exit.expression?.toList.flatMap expressionActions
  cases hexpression : block.exit.expression? with
  | none =>
      rw [hexpression] at hsites
      cases hsites
      rfl
  | some expression =>
      rw [hexpression] at hsites
      have hreads : reads expression = .ok sites := hsites
      rw [Option.toList_some, List.flatMap_singleton, expressionActions, hreads]

/-! ## The last write to a name -/

/-- The assignment is to a variable of that name, and after it no other write to one is made. -/
def LastWrite (names : Names) (name : String) (assignment : Assignment) (actions : List Action) :
    Prop :=
  names.get? assignment.target = some name ∧ ∃ before after,
    actions = before ++ .write assignment :: after ∧
      ∀ other, .write other ∈ after → names.get? other.target = some name → other = assignment

/-- No write to the name is made. -/
def Unwritten (names : Names) (name : String) (actions : List Action) : Prop :=
  ∀ other, .write other ∈ actions → names.get? other.target ≠ some name

section LastWrite

variable {names : Names} {name : String} {assignment : Assignment} {actions : List Action}

theorem unwritten_read (site : Site) : Unwritten names name [.read site] := by
  intro other hother
  cases List.mem_singleton.mp hother

theorem unwritten_write {other : Assignment} :
    Unwritten names name [.write other] ↔ names.get? other.target ≠ some name := by
  constructor
  · intro h
    exact h other (List.mem_singleton.mpr rfl)
  · intro h written hwritten
    cases List.mem_singleton.mp hwritten
    exact h

theorem unwritten_cons {action : Action} : Unwritten names name (action :: actions) ↔
    Unwritten names name [action] ∧ Unwritten names name actions := by
  simp only [Unwritten, List.mem_cons, List.not_mem_nil, or_false, or_imp, forall_and]

theorem not_lastWrite_nil : ¬ LastWrite names name assignment [] := by
  rintro ⟨-, before, after, h, -⟩
  cases before <;> cases h

/-- The last write comes later, or it is the first action and no write comes later. -/
theorem lastWrite_cons {action : Action} :
    LastWrite names name assignment (action :: actions) ↔
      LastWrite names name assignment actions ∨
        action = .write assignment ∧ names.get? assignment.target = some name ∧
          Unwritten names name actions := by
  constructor
  · rintro ⟨hname, before, after, heq, hafter⟩
    cases before with
    | cons first before =>
        cases heq
        exact .inl ⟨hname, before, after, rfl, hafter⟩
    | nil =>
        cases heq
        -- the same assignment may be made again later on
        by_cases hagain : .write assignment ∈ actions
        · obtain ⟨before, after, rfl⟩ := List.append_of_mem hagain
          refine .inl ⟨hname, before, after, rfl, fun other hother => hafter other ?_⟩
          exact List.mem_append_right _ (List.mem_cons_of_mem _ hother)
        · refine .inr ⟨rfl, hname, fun other hother hsame => hagain ?_⟩
          exact hafter other hother hsame ▸ hother
  · rintro (⟨hname, before, after, rfl, hafter⟩ | ⟨rfl, hname, hunwritten⟩)
    · exact ⟨hname, action :: before, after, rfl, hafter⟩
    · exact ⟨hname, [], actions, rfl, fun other hother hsame =>
        absurd hsame (hunwritten other hother)⟩

end LastWrite

/-! ## Definitions -/

namespace Definitions

/-- What an action makes of the current definitions. -/
def act (names : Names) (definitions : Definitions) : Action → Definitions
  | .read _ => definitions
  | .write assignment =>
    match names.get? assignment.target with
    | some name => definitions.define name assignment
    | none => definitions

/-- The definitions after some actions. -/
def after (names : Names) (actions : List Action) (definitions : Definitions) : Definitions :=
  actions.foldl (act names) definitions

variable {names : Names} {name : String} {assignment : Assignment} {actions : List Action}
  {definitions : Definitions}

/-- An action leaves a name alone, or it is a write to the name. -/
theorem mem_act {action : Action} :
    (name, assignment) ∈ act names definitions action ↔
      action = .write assignment ∧ names.get? assignment.target = some name ∨
        (name, assignment) ∈ definitions ∧ Unwritten names name [action] := by
  cases action with
  | read site =>
      rw [act]
      constructor
      · intro hmem
        exact .inr ⟨hmem, unwritten_read site⟩
      · rintro (⟨heq, -⟩ | ⟨hmem, -⟩)
        · cases heq
        · exact hmem
  | write other =>
      rw [act, unwritten_write]
      cases hother : names.get? other.target with
      | none =>
          constructor
          · intro hmem
            exact .inr ⟨hmem, nofun⟩
          · rintro (⟨heq, hname⟩ | ⟨hmem, -⟩)
            · cases heq
              cases hother.symm.trans hname
            · exact hmem
      | some written =>
          rw [mem_define]
          constructor
          · rintro (heq | ⟨hmem, hne⟩)
            · cases heq
              exact .inl ⟨rfl, hother⟩
            · refine .inr ⟨hmem, fun heq => hne ?_⟩
              cases heq
              rfl
          · rintro (⟨heq, hname⟩ | ⟨hmem, hne⟩)
            · cases heq
              cases hother.symm.trans hname
              exact .inl rfl
            · exact .inr ⟨hmem, fun heq => hne (congrArg some heq.symm)⟩

/-- After some actions a name is defined by its last write in them, or else as before. -/
theorem mem_after : (name, assignment) ∈ after names actions definitions ↔
    LastWrite names name assignment actions ∨
      (name, assignment) ∈ definitions ∧ Unwritten names name actions := by
  induction actions generalizing definitions with
  | nil => simp [after, not_lastWrite_nil, Unwritten]
  | cons action rest ih =>
      have hcons : after names (action :: rest) definitions =
          after names rest (act names definitions action) := rfl
      have hunwritten : Unwritten names name (action :: rest) ↔
          Unwritten names name [action] ∧ Unwritten names name rest := unwritten_cons
      rw [hcons, ih, mem_act, lastWrite_cons, hunwritten]
      grind

end Definitions

end DefUse
