/-
# `Proofs.Dependency.Lexical` — the lexical walk, move by move

What the walk through the source does to its state does not depend on the state, and
neither does whether it succeeds.  So the walk is a list of *moves* that is read off the
tree (`LexicalWalk.moves`), carried out from the start (`LexicalWalk.take`); and
`Program.lexical_eq` says that nothing else happens.

The moves are those of the renaming walk (frames, declarations, occurrences) and the
actions of the flow analysis (reads, writes) in one: this is where the three are compared.
-/
import DefUse.Dependency.Lexical
import DefUse.Proofs.Dependency.Passage

namespace DefUse

open DefUse.Tree

namespace LexicalWalk

/-- One move of the walk. -/
inductive Move where
  /-- Opens a frame. -/
  | push
  /-- Closes a frame. -/
  | pop
  /-- Binds the variable at a site, without a value. -/
  | blank (site : Site)
  /-- Reads a variable or writes one. -/
  | act (action : Action)
deriving DecidableEq

/-- Makes a move. -/
def take (program : Program) (walk : LexicalWalk) : Move → LexicalWalk
  | .push => walk.push
  | .pop => walk.pop
  | .blank site => { walk with scope := walk.scope.bind (program.text site) none }
  | .act (.read site) => walk.read program site
  | .act (.write assignment) => walk.write program assignment

/-- The moves that a part of the source stands for, or why it is refused. -/
abbrev Moves := Except AnalysisError (List Move)

namespace Moves

/-- No moves. -/
def none : Moves :=
  .ok []

/-- The moves of one part, then those of another. -/
def andThen (first second : Moves) : Moves := do
  let before ← first
  let after ← second
  return before ++ after

/-- The moves of a part with a frame of its own. -/
def framed (inside : Moves) : Moves :=
  andThen (.ok [.push]) (andThen inside (.ok [.pop]))

variable {first second inside : Moves} {moves : List Move}

theorem andThen_eq_ok : first.andThen second = .ok moves ↔
    ∃ before after, first = .ok before ∧ second = .ok after ∧ moves = before ++ after := by
  constructor
  · intro h
    obtain ⟨before, hbefore, h⟩ := exists_of_bind_eq_ok h
    obtain ⟨after, hafter, h⟩ := exists_of_bind_eq_ok h
    cases h
    exact ⟨before, after, hbefore, hafter, rfl⟩
  · rintro ⟨before, after, rfl, rfl, rfl⟩
    rfl

theorem framed_eq_ok : inside.framed = .ok moves ↔
    ∃ within, inside = .ok within ∧ moves = .push :: (within ++ [.pop]) := by
  constructor
  · intro h
    obtain ⟨_, rest, hpush, hrest, rfl⟩ := andThen_eq_ok.mp h
    obtain ⟨within, _, hwithin, hpop, rfl⟩ := andThen_eq_ok.mp hrest
    cases hpush
    cases hpop
    exact ⟨within, hwithin, rfl⟩
  · rintro ⟨within, rfl, rfl⟩
    rfl

end Moves

/-! ## The moves of a part -/

/-- The moves of a simple statement. -/
def simpleMoves (node : Node) : Moves := do
  let found ← effects node
  return (found.flatMap Effect.actions).map .act

/-- The moves of a declaration. -/
def declarationMoves (node : Node) : Moves :=
  Moves.andThen (.ok ((uninitialized node).map fun name => .blank name.site)) (simpleMoves node)

/-- The moves of an expression that is only read, if it is there. -/
def expressionMoves (node : Option Node) : Moves := do
  let sites ← readsOf? node
  return sites.map fun site => .act (.read site)

/-- The moves of the initializer of a `for`. -/
def initializerMoves (node : Option Node) : Moves :=
  match node with
  | none => .none
  | some node => if isDeclaration node then declarationMoves node else simpleMoves node

/-- The moves of the increment of a `for`. -/
def incrementMoves (node : Option Node) : Moves :=
  match node with
  | none => .none
  | some node => simpleMoves node

mutual

/-- The moves of a statement. -/
def moves : Node → Moves
  | .mk site children =>
    match site.kind with
    | .statementBlock => (movesNamed children).framed
    | .lexicalDeclaration | .variableDeclaration => declarationMoves (.mk site children)
    | .expressionStatement => simpleMoves (.mk site children)
    | .ifStatement =>
      (expressionMoves ((Node.mk site children).field? .condition)).andThen
        ((movesField .consequence children).andThen (movesElse children))
    | .whileStatement =>
      (expressionMoves ((Node.mk site children).field? .condition)).andThen
        (movesField .body children)
    | .doStatement =>
      (movesField .body children).andThen
        (expressionMoves ((Node.mk site children).field? .condition))
    | .forStatement =>
      let clauses := ForClauses.ofNode (.mk site children)
      Moves.framed ((initializerMoves clauses.initializer).andThen
        ((expressionMoves clauses.condition).andThen
          ((movesField .body children).andThen (incrementMoves clauses.increment))))
    | .returnStatement => expressionMoves (Node.mk site children).firstNamed?
    | .breakStatement | .continueStatement | .emptyStatement | .hashBangLine | .comment _ => .none
    | kind => .error (.unsupported kind.name site.line)

/-- The moves of the named ones among several nodes. -/
def movesNamed : List Node → Moves
  | [] => .none
  | child :: rest =>
    if child.isNamed then (moves child).andThen (movesNamed rest) else movesNamed rest

/-- The moves of the first node in role `field`. -/
def movesField (field : Field) : List Node → Moves
  | [] => .none
  | child :: rest => if child.carries field then moves child else movesField field rest

/-- The moves of the statement of the `else`. -/
def movesElse : List Node → Moves
  | [] => .none
  | child :: rest =>
    if child.carries .alternative then
      if child.kind = .elseClause then movesClause child else moves child
    else movesElse rest

/-- The moves of the statement that an `else` clause holds. -/
def movesClause : Node → Moves
  | .mk _ children => movesFirst children

/-- The moves of the first named node that is no comment. -/
def movesFirst : List Node → Moves
  | [] => .none
  | child :: rest => if child.isContent then moves child else movesFirst rest

end

/-! ## The walk makes its moves -/

variable (program : Program)

/-- A part of the walk makes exactly these moves. -/
def Makes (part : LexicalWalk → Except AnalysisError LexicalWalk) (moves : Moves) : Prop :=
  ∀ walk, part walk = moves.map (List.foldl (take program) walk)

variable {program} {part next : LexicalWalk → Except AnalysisError LexicalWalk}
  {first second inside : Moves}

theorem makes_none : Makes program .ok .none :=
  fun _ => rfl

theorem Makes.andThen (h : Makes program part first) (h' : Makes program next second) :
    Makes program (fun walk => part walk >>= next) (first.andThen second) := by
  intro walk
  show part walk >>= next = _
  rw [h]
  cases first with
  | error e => rfl
  | ok before =>
      show next (before.foldl (take program) walk) = _
      rw [h']
      cases second with
      | error e => rfl
      | ok after =>
          show Except.ok _ = Except.ok _
          rw [List.foldl_append]

theorem Makes.framed (h : Makes program part inside) :
    Makes program (fun walk => do let within ← part walk.push; return within.pop)
      inside.framed := by
  have hpush : Makes program (fun walk => .ok walk.push) (.ok [.push]) := fun _ => rfl
  have hpop : Makes program (fun walk => .ok walk.pop) (.ok [.pop]) := fun _ => rfl
  exact hpush.andThen (h.andThen hpop)

theorem foldl_step (found : List Effect) (walk : LexicalWalk) :
    ((found.flatMap Effect.actions).map Move.act).foldl (take program) walk =
      found.foldl (step program) walk := by
  induction found generalizing walk with
  | nil => rfl
  | cons effect rest ih =>
      rw [List.flatMap_cons, List.map_append, List.foldl_append, ih, List.foldl_cons]
      congr 1
      rw [Effect.actions, List.map_append, List.foldl_append, List.map_map, List.map_map,
        List.foldl_map, List.foldl_map]
      rfl

theorem makes_simple (node : Node) :
    Makes program (fun walk => walk.simple program node) (simpleMoves node) := by
  intro walk
  show (effects node >>= _) = Except.map _ (effects node >>= _)
  cases effects node with
  | error e => rfl
  | ok found =>
      show Except.ok (found.foldl (step program) walk) = Except.ok _
      rw [foldl_step]

theorem makes_declaration (node : Node) :
    Makes program (fun walk => walk.declaration program node) (declarationMoves node) := by
  have hblank : Makes program (fun walk => .ok (walk.declareUninitialized program node))
      (.ok ((uninitialized node).map fun name => .blank name.site)) := by
    intro walk
    show _ = Except.ok _
    rw [List.foldl_map]
    rfl
  exact hblank.andThen (makes_simple node)

theorem makes_expression (node : Option Node) :
    Makes program (fun walk => walk.expression program node) (expressionMoves node) := by
  intro walk
  show (readsOf? node >>= _) = Except.map _ (readsOf? node >>= _)
  cases readsOf? node with
  | error e => rfl
  | ok sites =>
      show Except.ok (sites.foldl (read program) walk) = Except.ok _
      rw [List.foldl_map]
      rfl

theorem makes_initializer (node : Option Node) :
    Makes program (fun walk => walk.initializer program node) (initializerMoves node) := by
  cases node with
  | none => exact makes_none
  | some node =>
      cases hdeclaration : isDeclaration node with
      | true => simpa [initializer, initializerMoves, hdeclaration] using makes_declaration node
      | false => simpa [initializer, initializerMoves, hdeclaration] using makes_simple node

theorem makes_increment (node : Option Node) :
    Makes program (fun walk => walk.increment program node) (incrementMoves node) := by
  cases node with
  | none => exact makes_none
  | some node => exact makes_simple node

mutual

/-- Going through a statement is making its moves. -/
theorem makes_statement : ∀ node : Node, Makes program (statement program node) (moves node)
  | .mk site children => by
      intro walk
      rw [statement, moves]
      generalize site.kind = kind
      split
      · exact (makes_statementsNamed children).framed walk
      · exact makes_declaration _ walk
      · exact makes_declaration _ walk
      · exact makes_simple _ walk
      · exact ((makes_expression _).andThen ((makes_statementField .consequence children).andThen
          (makes_statementElse children))) walk
      · exact ((makes_expression _).andThen (makes_statementField .body children)) walk
      · exact ((makes_statementField .body children).andThen (makes_expression _)) walk
      · refine Eq.trans ?_ (((makes_initializer _).andThen ((makes_expression _).andThen
          ((makes_statementField .body children).andThen (makes_increment _)))).framed walk)
        simp only [bind_assoc]
      · exact makes_expression _ walk
      · rfl
      · rfl
      · rfl
      · rfl
      · rfl
      · simp only [Except.map]

theorem makes_statementsNamed : ∀ nodes : List Node,
    Makes program (statementsNamed program nodes) (movesNamed nodes)
  | [] => fun _ => by rw [statementsNamed, movesNamed]; rfl
  | child :: rest => by
      intro walk
      rw [statementsNamed, movesNamed]
      split
      · refine Eq.trans ?_ ((makes_statement child).andThen (makes_statementsNamed rest) walk)
        show _ = statement program child walk >>= statementsNamed program rest
        cases statement program child walk <;> rfl
      · exact makes_statementsNamed rest walk

theorem makes_statementField (field : Field) : ∀ nodes : List Node,
    Makes program (statementField program field nodes) (movesField field nodes)
  | [] => fun _ => by rw [statementField, movesField]; rfl
  | child :: rest => by
      intro walk
      rw [statementField, movesField]
      split
      · exact makes_statement child walk
      · exact makes_statementField field rest walk

theorem makes_statementElse : ∀ nodes : List Node,
    Makes program (statementElse program nodes) (movesElse nodes)
  | [] => fun _ => by rw [statementElse, movesElse]; rfl
  | child :: rest => by
      intro walk
      rw [statementElse, movesElse]
      split
      · split
        · exact makes_statementClause child walk
        · exact makes_statement child walk
      · exact makes_statementElse rest walk

theorem makes_statementClause : ∀ node : Node,
    Makes program (statementClause program node) (movesClause node)
  | .mk _ children => by
      intro walk
      rw [statementClause, movesClause]
      exact makes_statementFirst children walk

theorem makes_statementFirst : ∀ nodes : List Node,
    Makes program (statementFirst program nodes) (movesFirst nodes)
  | [] => fun _ => by rw [statementFirst, movesFirst]; rfl
  | child :: rest => by
      intro walk
      rw [statementFirst, movesFirst]
      split
      · exact makes_statement child walk
      · exact makes_statementFirst rest walk

end

end LexicalWalk

open LexicalWalk in
/-- The moves of the walk through a program. -/
def Program.lexicalMoves (program : Program) : LexicalWalk.Moves :=
  movesNamed program.entry.body.children

/-- The lexical dependencies are what the moves lead to. -/
theorem Program.lexical_eq (program : Program) : program.lexical =
    program.lexicalMoves.map fun moves =>
      (moves.foldl (LexicalWalk.take program) .start).dependencies := by
  rw [lexical, lexicalMoves, LexicalWalk.makes_statementsNamed]
  cases LexicalWalk.movesNamed program.entry.body.children <;> rfl

end DefUse
