/-
# `Proofs.Run.Basic` — what a structured program does

The meaning of a program without any graph: statements run in order, an `if` runs
one of its arms, a `while` tests before each round and a `do` after it, a `for`
runs its initializer and then tests before each round and runs its increment after
it.  `break` leaves the innermost loop, `continue` ends its round, `return` ends the
run.  Conditions are answered by an oracle, as in a walk over a graph, and the
events are the same.

A loop may have no end, so each loop is given a number of rounds.  A run that needs
more is *cut short*, and what it has shown until then is the beginning of what the
program shows.  The rounds bound nothing else.

The meaning is read off the syntax tree directly (`Node.run`), down to the clauses of a
`for` (`Node.clauseIn`, `Node.testIn`).  Statements, from which graphs are built, have the
same meaning (`Statement.run`): that reading a statement keeps what it does is
`Statement.reads_ofNode`.
-/
import DefUse.Proofs.Statement
import DefUse.Proofs.Walk.Basic

namespace DefUse

open DefUse.Tree

/-! ## Courses of events -/

/-- How a part of a program ends. -/
inductive Ending where
  /-- Control goes on to what comes next. -/
  | through
  /-- Control goes to the end of the innermost loop, or of its round. -/
  | jumped (jump : LoopJump)
  /-- The run is over. -/
  | returned
  /-- A loop has used up its rounds. -/
  | cutShort

/-- All that was seen until a part of a program ended. -/
structure Run where
  events : List RunEvent
  ending : Ending

/-- What a part of a program does, given all that was seen before. -/
abbrev Course := List RunEvent → Run

namespace Course

/-- Nothing. -/
def skip : Course := fun seen => ⟨seen, .through⟩

/-- Runs a simple statement. -/
def simple (node : Node) : Course := fun seen => ⟨seen ++ [.ran node], .through⟩

/-- Runs a simple statement, if there is one. -/
def optional : Option Node → Course
  | none => skip
  | some node => simple node

/-- Leaves the body of a loop. -/
def jump (jump : LoopJump) : Course := fun seen => ⟨seen, .jumped jump⟩

/-- Ends the run. -/
def ret (value : Option Node) : Course := fun seen => ⟨seen ++ [.finished value], .returned⟩

/-- One after the other, if the first one comes to its end. -/
def andThen (first second : Course) : Course := fun seen =>
  match first seen with
  | ⟨events, .through⟩ => second events
  | run => run

/-- Tests a condition.  An absent one holds, and nothing is seen of it. -/
def test (oracle : Oracle) (condition : Option Node) (onTrue onFalse : Course) : Course :=
  fun seen =>
    match condition with
    | none => onTrue seen
    | some node =>
      if oracle seen node then onTrue (seen ++ [.tested node true])
      else onFalse (seen ++ [.tested node false])

/-- The body of a loop, and what comes after the round.  A jump in the body ends
here. -/
def round (body next : Course) : Course := fun seen =>
  match body seen with
  | ⟨events, .through⟩ | ⟨events, .jumped .again⟩ => next events
  | ⟨events, .jumped .leave⟩ => ⟨events, .through⟩
  | run => run

/-- At most so many rounds, with a test before each and an increment after each. -/
def testFirst (oracle : Oracle) (condition : Option Node) (body increment : Course) :
    Nat → Course
  | 0 => fun seen => ⟨seen, .cutShort⟩
  | rounds + 1 =>
    test oracle condition
      (round body (andThen increment (testFirst oracle condition body increment rounds))) skip

/-- At most so many rounds, with a test after each. -/
def testLast (oracle : Oracle) (condition : Option Node) (body : Course) : Nat → Course
  | 0 => fun seen => ⟨seen, .cutShort⟩
  | rounds + 1 => round body (test oracle condition (testLast oracle condition body rounds) skip)

end Course

/-! ## Statements -/

/-- What a statement does. -/
def Statement.run (oracle : Oracle) (rounds : Nat) : Statement → Course
  | skip => .skip
  | simple node => .simple node
  | seq first second => .andThen (first.run oracle rounds) (second.run oracle rounds)
  | ifElse condition thenArm elseArm =>
    .test oracle (some condition) (thenArm.run oracle rounds) (elseArm.run oracle rounds)
  | whileLoop condition body =>
    .testFirst oracle (some condition) (body.run oracle rounds) .skip rounds
  | doLoop condition body => .testLast oracle (some condition) (body.run oracle rounds) rounds
  | forLoop initializer condition increment body =>
    .andThen (.optional initializer)
      (.testFirst oracle condition (body.run oracle rounds) (.optional increment) rounds)
  | jump kind => .jump kind
  | ret value => .ret value

/-! ## Syntax trees -/

namespace Tree.Node

/-- The clause of a `for` in a role.  It is left out if a mere token or an empty statement stands in
its place. -/
def clauseIn (role : Field) : List Node → Option Node
  | [] => none
  | child :: rest =>
    if child.carries role then
      if child.isNamed = true ∧ child.kind ≠ .emptyStatement then some child else none
    else clauseIn role rest

/-- What a `for` tests.  If a statement stands in the place of the test, it is the expression in
it. -/
def testIn (children : List Node) : Option Node :=
  match clauseIn .condition children with
  | none => none
  | some clause => if clause.kind = .expressionStatement then clause.firstNamed? else some clause

theorem clauseIn_eq_filter (role : Field) (children : List Node) :
    clauseIn role children = (children.find? (carries role)).filter ForClauses.present := by
  induction children with
  | nil => rfl
  | cons child rest ih =>
      rw [clauseIn, List.find?_cons]
      cases child.carries role with
      | true => simp [Option.filter, ForClauses.present]
      | false => exact ih

/-- The clauses from which graphs are built are those that run. -/
theorem forClauses_ofNode (site : Site) (children : List Node) :
    ForClauses.ofNode (.mk site children) =
      { initializer := clauseIn .initializer children
        condition := testIn children
        increment := clauseIn .increment children
        body := children.find? (carries .body) } := by
  simp only [ForClauses.ofNode, field?, children_mk, testIn, clauseIn_eq_filter]
  congr 1
  cases (children.find? (carries .condition)).filter ForClauses.present <;> rfl

section Run

variable (oracle : Oracle) (rounds : Nat)

mutual

/-- What a node does as a statement. -/
def run : Node → Course
  | .mk site children =>
    let condition := (Node.mk site children).field? .condition
    match site.kind with
    | .expressionStatement | .lexicalDeclaration | .variableDeclaration =>
      .simple (.mk site children)
    | .statementBlock => runNamed children
    | .ifStatement =>
      .test oracle condition (runField .consequence children) (runElse children)
    | .whileStatement => .testFirst oracle condition (runField .body children) .skip rounds
    | .doStatement => .testLast oracle condition (runField .body children) rounds
    | .forStatement =>
      .andThen (.optional (clauseIn .initializer children))
        (.testFirst oracle (testIn children) (runField .body children)
          (.optional (clauseIn .increment children)) rounds)
    | .breakStatement => .jump .leave
    | .continueStatement => .jump .again
    | .returnStatement => .ret (Node.mk site children).firstNamed?
    | _ => .skip

/-- The named ones among several nodes, one after the other. -/
def runNamed : List Node → Course
  | [] => .skip
  | child :: rest => if child.isNamed then .andThen (run child) (runNamed rest) else runNamed rest

/-- The first node in role `field`. -/
def runField (field : Field) : List Node → Course
  | [] => .skip
  | child :: rest => if child.carries field then run child else runField field rest

/-- The `else` among the parts of an `if`. -/
def runElse : List Node → Course
  | [] => .skip
  | child :: rest =>
    if child.carries .alternative then
      if child.kind = .elseClause then runClause child else run child
    else runElse rest

/-- The statement that an `else` clause holds. -/
def runClause : Node → Course
  | .mk _ children => runFirst children

/-- The first named node that is no comment. -/
def runFirst : List Node → Course
  | [] => .skip
  | child :: rest => if child.isContent then run child else runFirst rest

end

/-- What a node does, if there is one. -/
def runOption : Option Node → Course
  | none => .skip
  | some node => node.run oracle rounds

variable {oracle rounds}

/-- The recursion over the parts of a statement finds the part in a role. -/
theorem runField_eq (field : Field) (children : List Node) :
    runField oracle rounds field children =
      runOption oracle rounds (children.find? (carries field)) := by
  induction children with
  | nil =>
      rw [runField]
      rfl
  | cons child rest ih =>
      rw [runField, List.find?_cons]
      cases child.carries field with
      | true => rfl
      | false => exact ih

theorem runFirst_eq (children : List Node) :
    runFirst oracle rounds children = runOption oracle rounds (children.find? isContent) := by
  induction children with
  | nil =>
      rw [runFirst]
      rfl
  | cons child rest ih =>
      rw [runFirst, List.find?_cons]
      cases child.isContent with
      | true => rfl
      | false => exact ih

/-- It finds the statement of the `else`, too. -/
theorem runElse_eq (site : Site) (children : List Node) :
    runElse oracle rounds children = runOption oracle rounds (elseArm? (.mk site children)) := by
  rw [elseArm?, field?, children_mk]
  induction children with
  | nil =>
      rw [runElse]
      rfl
  | cons child rest ih =>
      rw [runElse, List.find?_cons]
      cases child.carries .alternative with
      | true =>
          obtain ⟨inner, below⟩ := child
          simp only [if_true, runClause, runFirst_eq, firstNamed?, children_mk]
          split <;> rfl
      | false => exact ih

end Run

end Tree.Node

/-! ## Reading statements -/

namespace Statement

/-- Jumps stand inside loops. -/
def Scoped (inLoop : Bool) : Statement → Prop
  | skip | simple _ | ret _ => True
  | seq first second => first.Scoped inLoop ∧ second.Scoped inLoop
  | ifElse _ thenArm elseArm => thenArm.Scoped inLoop ∧ elseArm.Scoped inLoop
  | whileLoop _ body | doLoop _ body | forLoop _ _ _ body => body.Scoped true
  | jump _ => inLoop = true

/-- The statement does what the course does, and its jumps stand inside loops. -/
structure Reads (inLoop : Bool) (course : Oracle → Nat → Course) (statement : Statement) : Prop where
  enclosed : statement.Scoped inLoop
  run : ∀ oracle rounds, statement.run oracle rounds = course oracle rounds

variable {inLoop : Bool} {statement : Statement}

theorem reads_skip : Reads inLoop (fun _ _ => .skip) skip :=
  ⟨trivial, fun _ _ => rfl⟩

theorem reads_simple (node : Node) : Reads inLoop (fun _ _ => .simple node) (simple node) :=
  ⟨trivial, fun _ _ => rfl⟩

theorem reads_ofJump {jump : LoopJump} {node : Node}
    (h : ofJump inLoop jump node = .ok statement) :
    Reads inLoop (fun _ _ => .jump jump) statement := by
  obtain ⟨rfl, hloop⟩ := ofJump_eq_ok h
  exact ⟨hloop, fun _ _ => rfl⟩

mutual

/-- Reading a statement off the tree keeps what it does. -/
theorem reads_ofNode (inLoop : Bool) : ∀ (node : Node) (statement : Statement),
    ofNode inLoop node = .ok statement →
    Reads inLoop (fun oracle rounds => node.run oracle rounds) statement
  | .mk site children, statement, h => by
      rw [ofNode] at h
      simp only [Node.run]
      split at h <;> rename_i hkind <;> simp only [hkind]
      -- simple statements
      · cases h
        exact reads_simple _
      · cases h
        exact reads_simple _
      · cases h
        exact reads_simple _
      · exact reads_ofNamed inLoop children statement h
      -- what does nothing
      · cases h
        exact reads_skip
      · cases h
        exact reads_skip
      · cases h
        exact reads_skip
      -- `if`
      · obtain ⟨condition, hcondition, h⟩ := exists_of_bind_eq_ok h
        obtain ⟨thenArm, hthen, h⟩ := exists_of_bind_eq_ok h
        obtain ⟨elseArm, helse, h⟩ := exists_of_bind_eq_ok h
        cases h
        have hfirst := reads_ofField inLoop .consequence children thenArm hthen
        have hsecond := reads_ofElse inLoop children elseArm helse
        refine ⟨⟨hfirst.enclosed, hsecond.enclosed⟩, ?_⟩
        intro oracle rounds
        rw [conditionOf_eq_ok hcondition, ← hfirst.run, ← hsecond.run]
        rfl
      -- the loops
      · obtain ⟨condition, hcondition, h⟩ := exists_of_bind_eq_ok h
        obtain ⟨body, hbody, h⟩ := exists_of_bind_eq_ok h
        cases h
        have hround := reads_ofField true .body children body hbody
        refine ⟨hround.enclosed, ?_⟩
        intro oracle rounds
        rw [conditionOf_eq_ok hcondition, ← hround.run]
        rfl
      · obtain ⟨condition, hcondition, h⟩ := exists_of_bind_eq_ok h
        obtain ⟨body, hbody, h⟩ := exists_of_bind_eq_ok h
        cases h
        have hround := reads_ofField true .body children body hbody
        refine ⟨hround.enclosed, ?_⟩
        intro oracle rounds
        rw [conditionOf_eq_ok hcondition, ← hround.run]
        rfl
      · obtain ⟨body, hbody, h⟩ := exists_of_bind_eq_ok h
        cases h
        have hround := reads_ofField true .body children body hbody
        refine ⟨hround.enclosed, ?_⟩
        intro oracle rounds
        rw [← hround.run, Node.forClauses_ofNode]
        rfl
      -- jumps and `return`
      · exact reads_ofJump h
      · exact reads_ofJump h
      · cases h
        exact ⟨trivial, fun _ _ => rfl⟩
      · cases h

theorem reads_ofNamed (inLoop : Bool) : ∀ (nodes : List Node) (statement : Statement),
    ofNamed inLoop nodes = .ok statement →
    Reads inLoop (fun oracle rounds => Node.runNamed oracle rounds nodes) statement
  | [], statement, h => by
      cases h
      exact reads_skip
  | child :: rest, statement, h => by
      rw [ofNamed] at h
      simp only [Node.runNamed]
      split at h
      · rename_i hnamed
        obtain ⟨first, hfirst, h⟩ := exists_of_bind_eq_ok h
        obtain ⟨others, hothers, h⟩ := exists_of_bind_eq_ok h
        cases h
        have hhead := reads_ofNode inLoop child first hfirst
        have htail := reads_ofNamed inLoop rest others hothers
        refine ⟨⟨hhead.enclosed, htail.enclosed⟩, ?_⟩
        intro oracle rounds
        rw [if_pos hnamed, ← hhead.run, ← htail.run]
        rfl
      · rename_i hnamed
        simp only [if_neg hnamed]
        exact reads_ofNamed inLoop rest statement h

theorem reads_ofField (inLoop : Bool) (field : Field) : ∀ (nodes : List Node)
    (statement : Statement), ofField inLoop field nodes = .ok statement →
    Reads inLoop (fun oracle rounds => Node.runField oracle rounds field nodes) statement
  | [], statement, h => by
      cases h
      exact reads_skip
  | child :: rest, statement, h => by
      rw [ofField] at h
      simp only [Node.runField]
      split at h
      · rename_i hcarries
        simp only [if_pos hcarries]
        exact reads_ofNode inLoop child statement h
      · rename_i hcarries
        simp only [if_neg hcarries]
        exact reads_ofField inLoop field rest statement h

theorem reads_ofElse (inLoop : Bool) : ∀ (nodes : List Node) (statement : Statement),
    ofElse inLoop nodes = .ok statement →
    Reads inLoop (fun oracle rounds => Node.runElse oracle rounds nodes) statement
  | [], statement, h => by
      cases h
      exact reads_skip
  | child :: rest, statement, h => by
      rw [ofElse] at h
      simp only [Node.runElse]
      split at h
      · rename_i hcarries
        simp only [if_pos hcarries]
        split at h
        · rename_i hclause
          simp only [if_pos hclause]
          exact reads_ofClause inLoop child statement h
        · rename_i hclause
          simp only [if_neg hclause]
          exact reads_ofNode inLoop child statement h
      · rename_i hcarries
        simp only [if_neg hcarries]
        exact reads_ofElse inLoop rest statement h

theorem reads_ofClause (inLoop : Bool) : ∀ (node : Node) (statement : Statement),
    ofClause inLoop node = .ok statement →
    Reads inLoop (fun oracle rounds => node.runClause oracle rounds) statement
  | .mk site children, statement, h => by
      simp only [Node.runClause]
      exact reads_ofFirst inLoop children statement h

theorem reads_ofFirst (inLoop : Bool) : ∀ (nodes : List Node) (statement : Statement),
    ofFirst inLoop nodes = .ok statement →
    Reads inLoop (fun oracle rounds => Node.runFirst oracle rounds nodes) statement
  | [], statement, h => by
      cases h
      exact reads_skip
  | child :: rest, statement, h => by
      rw [ofFirst] at h
      simp only [Node.runFirst]
      split at h
      · rename_i hcontent
        simp only [if_pos hcontent]
        exact reads_ofNode inLoop child statement h
      · rename_i hcontent
        simp only [if_neg hcontent]
        exact reads_ofFirst inLoop rest statement h

end

end Statement

/-! ## Programs -/

namespace Program

/-- The events of a program whose loops have at most so many rounds each.  A run that comes to
the end of the program ends without a value. -/
def run (program : Program) (oracle : Oracle) (rounds : Nat) : List RunEvent :=
  match Node.runNamed oracle rounds program.entry.body.children [] with
  | ⟨events, .through⟩ => events ++ [.finished none]
  | ⟨events, _⟩ => events

/-- The events are the beginning of what a run of the program shows. -/
def Shows (program : Program) (oracle : Oracle) (events : List RunEvent) : Prop :=
  ∃ rounds, events <+: program.run oracle rounds

theorem run_of_statement {program : Program} {statement : Statement}
    (h : program.statement = .ok statement) (oracle : Oracle) (rounds : Nat) :
    program.run oracle rounds =
      match statement.run oracle rounds [] with
      | ⟨events, .through⟩ => events ++ [.finished none]
      | ⟨events, _⟩ => events := by
  rw [run, (Statement.reads_ofNamed false _ statement h).run]

end Program

end DefUse
