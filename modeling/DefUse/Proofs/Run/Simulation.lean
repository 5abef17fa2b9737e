/-
# `Proofs.Run.Simulation` — a graph does what its program does

The run of a statement and the walk over a graph that holds it go side by side
(`Laid.follows`, by induction over the layout).  Where the run comes to the end of the
statement, the walk is at the code after it; where the run jumps, the walk is at the
target of the jump; where the run is over, so is the walk.

A run may be cut short because a loop used up its rounds.  Each round takes at least
one step of the walk, the test, so that a walk beside such a run has taken at least as
many steps as there were rounds.  That is why nothing is lost: what a walk shows in `n`
steps, a run of `n` rounds shows (`Program.shows_iff_graph`).
-/
import DefUse.Proofs.Run.Layout

namespace DefUse

open DefUse.Tree

variable {graph : Graph} {oracle : Oracle}

/-- The steps of a walk that asks every condition there is. -/
abbrev Graph.Gets (graph : Graph) (oracle : Oracle) (n : Nat) (start stop : Walk) : Prop :=
  Walk.steps graph Condition.isAlways oracle n start = stop

theorem Graph.Gets.trans {n m : Nat} {start middle stop : Walk}
    (h : graph.Gets oracle n start middle) (h' : graph.Gets oracle m middle stop) :
    graph.Gets oracle (n + m) start stop := by
  rw [Graph.Gets, Walk.steps_add, h, h']

/-- The walk from `start` follows the run.  A run that is cut short takes `bound` steps at
least. -/
inductive Follows (graph : Graph) (oracle : Oracle) (bound : Nat) (loop : Option LoopTargets)
    (rest : Code) (start : Walk) : Run → Prop
  | through {n : Nat} {events : List RunEvent} : graph.Gets oracle n start ⟨some rest, events⟩ →
      Follows graph oracle bound loop rest start ⟨events, .through⟩
  | jumped {n : Nat} {events : List RunEvent} {targets : LoopTargets} {jump : LoopJump} :
      loop = some targets →
      graph.Gets oracle n start ⟨graph.code? (targets.of jump), events⟩ →
      Follows graph oracle bound loop rest start ⟨events, .jumped jump⟩
  | returned {n : Nat} {events : List RunEvent} : graph.Gets oracle n start ⟨none, events⟩ →
      Follows graph oracle bound loop rest start ⟨events, .returned⟩
  | cutShort {n : Nat} {stop : Walk} : bound ≤ n → graph.Gets oracle n start stop →
      Follows graph oracle bound loop rest start ⟨stop.events, .cutShort⟩

namespace Follows

variable {bound : Nat} {loop : Option LoopTargets} {rest : Code} {start : Walk} {run : Run}

theorem mono (h : Follows graph oracle bound loop rest start run) {bound' : Nat}
    (hle : bound' ≤ bound) : Follows graph oracle bound' loop rest start run := by
  cases h with
  | through h => exact .through h
  | jumped hloop h => exact .jumped hloop h
  | returned h => exact .returned h
  | cutShort hn h => exact .cutShort (Nat.le_trans hle hn) h

/-- Steps before the run starts. -/
theorem after {n : Nat} {middle : Walk} (hsteps : graph.Gets oracle n start middle)
    (h : Follows graph oracle bound loop rest middle run) :
    Follows graph oracle (n + bound) loop rest start run := by
  cases h with
  | through h => exact .through (hsteps.trans h)
  | jumped hloop h => exact .jumped hloop (hsteps.trans h)
  | returned h => exact .returned (hsteps.trans h)
  | cutShort hn h => exact .cutShort (Nat.add_le_add_left hn n) (hsteps.trans h)

/-- A jump at the end. -/
theorem onward {next : BlockId} (hnext : graph.code? next = some rest)
    (h : Follows graph oracle bound loop ⟨[], .jump next⟩ start run) :
    Follows graph oracle bound loop rest start run := by
  cases h with
  | @through n events h =>
      refine .through (h.trans ?_ : graph.Gets oracle (n + 1) _ _)
      show (⟨graph.code? next, events⟩ : Walk) = _
      rw [hnext]
  | jumped hloop h => exact .jumped hloop h
  | returned h => exact .returned h
  | cutShort hn h => exact .cutShort hn h

/-! ## One lemma for each way to put courses together -/

section Courses

variable {seen : List RunEvent} {first second body next yes no : Course} {middle : Code}

theorem andThen (hfirst : Follows graph oracle bound loop middle start (first seen))
    (hsecond : ∀ events,
      Follows graph oracle bound loop rest ⟨some middle, events⟩ (second events)) :
    Follows graph oracle bound loop rest start (first.andThen second seen) := by
  rw [Course.andThen]
  generalize first seen = run at hfirst
  cases hfirst with
  | through h => exact ((hsecond _).after h).mono (Nat.le_add_left _ _)
  | jumped hloop h => exact .jumped hloop h
  | returned h => exact .returned h
  | cutShort hn h => exact .cutShort hn h

/-- A round ends at the jump that starts the next one, or at a jump out of the body. -/
theorem round {again leave : BlockId}
    (hbody : Follows graph oracle bound (some ⟨again, leave⟩) ⟨[], .jump again⟩ start (body seen))
    (hleave : graph.code? leave = some rest)
    (hnext : ∀ events,
      Follows graph oracle bound loop rest ⟨graph.code? again, events⟩ (next events)) :
    Follows graph oracle bound loop rest start (Course.round body next seen) := by
  rw [Course.round]
  generalize body seen = run at hbody
  cases hbody with
  | @through n events h =>
      have hjump : graph.Gets oracle 1 ⟨some ⟨[], .jump again⟩, events⟩
          ⟨graph.code? again, events⟩ := rfl
      exact ((hnext events).after (h.trans hjump)).mono (Nat.le_add_left _ _)
  | @jumped n events targets jump hloop h =>
      cases hloop
      cases jump with
      | again => exact ((hnext events).after h).mono (Nat.le_add_left _ _)
      | leave =>
          refine .through (h.trans ?_ : graph.Gets oracle (n + 0) _ _)
          show (⟨graph.code? leave, events⟩ : Walk) = _
          rw [hleave]
  | returned h => exact .returned h
  | cutShort hn h => exact .cutShort hn h

/-- A test takes a step. -/
theorem test (condition : Option Node) {onTrue onFalse : BlockId}
    (hyes : ∀ events,
      Follows graph oracle bound loop rest ⟨graph.code? onTrue, events⟩ (yes events))
    (hno : ∀ events,
      Follows graph oracle bound loop rest ⟨graph.code? onFalse, events⟩ (no events)) :
    Follows graph oracle (1 + bound) loop rest
      ⟨some ⟨[], .branch (Draft.forCondition condition) onTrue onFalse⟩, seen⟩
      (Course.test oracle condition yes no seen) := by
  cases condition with
  | none =>
      have hstep : graph.Gets oracle 1 ⟨some ⟨[], .branch .always onTrue onFalse⟩, seen⟩
          ⟨graph.code? onTrue, seen⟩ := rfl
      exact (hyes seen).after hstep
  | some node =>
      have hstep : graph.Gets oracle 1 ⟨some ⟨[], .branch (.test node) onTrue onFalse⟩, seen⟩
          ⟨graph.code? (if oracle seen node then onTrue else onFalse),
            seen ++ [.tested node (oracle seen node)]⟩ := rfl
      simp only [Course.test]
      cases hanswer : oracle seen node with
      | true =>
          rw [hanswer] at hstep
          exact (hyes _).after hstep
      | false =>
          rw [hanswer] at hstep
          exact (hno _).after hstep

/-- A loop with its test first.  Between two rounds control goes from `again`, past the
increment, to the test. -/
theorem testFirst (condition : Option Node) {increment : Course} {test again inner leave : BlockId}
    {bodyCode : Code}
    (htest : graph.code? test =
      some ⟨[], .branch (Draft.forCondition condition) inner leave⟩)
    (hinner : graph.code? inner = some bodyCode) (hleave : graph.code? leave = some rest)
    (hbody : ∀ events, Follows graph oracle bound (some ⟨again, leave⟩) ⟨[], .jump again⟩
      ⟨some bodyCode, events⟩ (body events))
    (hincrement : ∀ events, ∃ n later, increment events = ⟨later, .through⟩ ∧
      graph.Gets oracle n ⟨graph.code? again, events⟩ ⟨graph.code? test, later⟩)
    (rounds : Nat) (hrounds : rounds ≤ bound) (seen : List RunEvent) :
    Follows graph oracle rounds loop rest ⟨graph.code? test, seen⟩
      (Course.testFirst oracle condition body increment rounds seen) := by
  induction rounds generalizing seen with
  | zero => exact .cutShort (Nat.zero_le 0) rfl
  | succ rounds ih =>
      have hle : rounds ≤ bound := Nat.le_of_succ_le hrounds
      rw [Course.testFirst, htest, Nat.add_comm]
      refine .test condition (fun events => ?_) (fun events => ?_)
      · rw [hinner]
        refine .round ((hbody events).mono hle) hleave ?_
        intro events
        obtain ⟨n, later, hlater, hgets⟩ := hincrement events
        rw [Course.andThen, hlater]
        exact ((ih hle later).after hgets).mono (Nat.le_add_left _ _)
      · rw [hleave]
        exact .through (rfl : graph.Gets oracle 0 _ _)

/-- A loop with its test last. -/
theorem testLast {condition : Node} {test inner leave : BlockId} {bodyCode : Code}
    (htest : graph.code? test = some ⟨[], .branch (.test condition) inner leave⟩)
    (hinner : graph.code? inner = some bodyCode) (hleave : graph.code? leave = some rest)
    (hbody : ∀ events, Follows graph oracle bound (some ⟨test, leave⟩) ⟨[], .jump test⟩
      ⟨some bodyCode, events⟩ (body events))
    (rounds : Nat) (hrounds : rounds ≤ bound) (seen : List RunEvent) :
    Follows graph oracle rounds loop rest ⟨some bodyCode, seen⟩
      (Course.testLast oracle (some condition) body rounds seen) := by
  induction rounds generalizing seen with
  | zero => exact .cutShort (Nat.zero_le 0) rfl
  | succ rounds ih =>
      have hle : rounds ≤ bound := Nat.le_of_succ_le hrounds
      rw [Course.testLast]
      refine .round ((hbody seen).mono hrounds) hleave ?_
      intro events
      rw [htest, Nat.add_comm]
      refine .test (some condition) (fun events => ?_) (fun events => ?_)
      · rw [hinner]
        exact ih hle events
      · rw [hleave]
        exact .through (rfl : graph.Gets oracle 0 _ _)

end Courses

end Follows

/-- The walk past a statement that may be absent. -/
theorem gets_optional (node : Option Node) (exit : Exit) (seen : List RunEvent) :
    ∃ n later, Course.optional node seen = ⟨later, .through⟩ ∧
      graph.Gets oracle n ⟨some ⟨node.toList, exit⟩, seen⟩ ⟨some ⟨[], exit⟩, later⟩ := by
  cases node with
  | none => exact ⟨0, seen, rfl, rfl⟩
  | some node => exact ⟨1, seen ++ [.ran node], rfl, rfl⟩

/-- The walk over a graph that holds a statement follows the run of the statement. -/
theorem Graph.Laid.follows {loop : Option LoopTargets} {statement : Statement} {code rest : Code}
    (h : graph.Laid loop statement code rest) (rounds : Nat) (seen : List RunEvent) :
    Follows graph oracle rounds loop rest ⟨some code, seen⟩
      (statement.run oracle rounds seen) := by
  induction h generalizing seen with
  | skip => exact .through (rfl : graph.Gets oracle 0 _ _)
  | simple => exact .through (rfl : graph.Gets oracle 1 _ _)
  | seq _ _ ihFirst ihSecond => exact (ihFirst seen).andThen ihSecond
  | @ifElse loop condition thenArm elseArm onTrue onFalse next thenCode elseCode rest hthen helse
      hnext _ _ ihThen ihElse =>
      refine (Follows.test (some condition) (fun events => ?_) (fun events => ?_)).mono
        (Nat.le_add_left _ _)
      · rw [hthen]
        exact (ihThen events).onward hnext
      · rw [helse]
        exact (ihElse events).onward hnext
  | @whileLoop loop condition body test inner next bodyCode rest htest hinner hnext _ ih =>
      have hjump : graph.Gets oracle 1 ⟨some ⟨[], .jump test⟩, seen⟩ ⟨graph.code? test, seen⟩ := rfl
      refine (Follows.after hjump ?_).mono (Nat.le_add_left _ _)
      refine .testFirst (some condition) htest hinner hnext ih ?_ rounds (Nat.le_refl _) seen
      exact fun events => ⟨0, events, rfl, rfl⟩
  | @doLoop loop condition body test inner next bodyCode rest htest hinner hnext _ ih =>
      have hjump : graph.Gets oracle 1 ⟨some ⟨[], .jump inner⟩, seen⟩ ⟨some bodyCode, seen⟩ := by
        show (⟨graph.code? inner, seen⟩ : Walk) = _
        rw [hinner]
      refine (Follows.after hjump ?_).mono (Nat.le_add_left _ _)
      exact .testLast htest hinner hnext ih rounds (Nat.le_refl _) seen
  | @forLoop loop initializer condition increment body test init incr inner next bodyCode rest hinit
      htest hincr hinner hnext _ ih =>
      have hjump : ∀ events, graph.Gets oracle 1 ⟨some ⟨[], .jump test⟩, events⟩
          ⟨graph.code? test, events⟩ := fun _ => rfl
      have hgets : ∀ {id : BlockId} {node : Option Node} (events : List RunEvent),
          graph.code? id = some ⟨node.toList, .jump test⟩ →
          ∃ n later, Course.optional node events = ⟨later, .through⟩ ∧
            graph.Gets oracle n ⟨graph.code? id, events⟩ ⟨graph.code? test, later⟩ := by
        intro id node events hid
        obtain ⟨n, later, hlater, hsteps⟩ := gets_optional node (.jump test) events
        exact ⟨n + 1, later, hlater, hid ▸ hsteps.trans (hjump later)⟩
      obtain ⟨n, later, hlater, hsteps⟩ := hgets seen hinit
      have hstart : graph.Gets oracle 1 ⟨some ⟨[], .jump init⟩, seen⟩ ⟨graph.code? init, seen⟩ := rfl
      rw [Statement.run, Course.andThen, hlater]
      refine (Follows.after (hstart.trans hsteps) ?_).mono (Nat.le_add_left _ _)
      exact .testFirst condition htest hinner hnext ih (fun events => hgets events hincr) rounds
        (Nat.le_refl _) later
  | jump => exact .jumped rfl (rfl : graph.Gets oracle 1 _ _)
  | ret => exact .returned (rfl : graph.Gets oracle 1 _ _)

/-! ## Programs -/

/-- What a run of so many rounds shows, the walk gets to; and the walk either is over then, or has
taken that many steps. -/
theorem Program.gets_run {program : Program} (h : program.graph = .ok graph) (oracle : Oracle)
    (rounds : Nat) : ∃ n stop, graph.Gets oracle n ⟨graph.code? graph.entry, []⟩ stop ∧
      stop.events = program.run oracle rounds ∧ (stop.rest = none ∨ rounds ≤ n) := by
  obtain ⟨statement, hstatement, rfl⟩ := statement_of_graph h
  obtain ⟨code, hcode, hlaid⟩ :=
    Statement.laid_graph (Statement.reads_ofNamed false _ statement hstatement).enclosed
  rw [run_of_statement hstatement, Graph.entry_setParents, hcode]
  have hfollows : Follows _ oracle rounds none _ _ (statement.run oracle rounds []) :=
    hlaid.follows rounds []
  generalize statement.run oracle rounds [] = run at hfollows
  cases hfollows with
  | @through n events h =>
      have hend : Graph.Gets statement.graph.setParents oracle 1 ⟨some ⟨[], .ret none⟩, events⟩
          ⟨none, events ++ [.finished none]⟩ := rfl
      exact ⟨n + 1, _, h.trans hend, rfl, .inl rfl⟩
  | jumped hloop _ => cases hloop
  | returned h => exact ⟨_, _, h, rfl, .inl rfl⟩
  | cutShort hn h => exact ⟨_, _, h, rfl, .inr hn⟩

/-- The graph of a program shows what the program shows, under every oracle. -/
theorem Program.shows_iff_graph {program : Program} (h : program.graph = .ok graph)
    (oracle : Oracle) (events : List RunEvent) :
    program.Shows oracle events ↔ graph.Shows Condition.isAlways oracle events := by
  constructor
  · rintro ⟨rounds, hevents⟩
    obtain ⟨n, stop, hgets, hrun, -⟩ := gets_run h oracle rounds
    refine ⟨n, ?_⟩
    rw [Graph.walk, hgets, hrun]
    exact hevents
  · rintro ⟨n, hevents⟩
    -- as many rounds as there were steps are enough
    obtain ⟨m, stop, hgets, hrun, hover⟩ := gets_run h oracle n
    refine ⟨n, ?_⟩
    rw [← hrun]
    exact hevents.trans (Walk.events_prefix_stop hgets hover)

namespace Program

/-- The tree of a loop that counts. -/
def countingTree : Node :=
  sampleNode (.other "program") 0 34 []
    [sampleNode .forStatement 0 34 []
      [sampleNode .lexicalDeclaration 5 15 [.initializer]
        [sampleNode .variableDeclarator 9 14 []
          [sampleNode .identifier 9 10 [.name] [],
            sampleNode (.other "number") 13 14 [.value] []]],
        sampleNode (.other "binary_expression") 16 21 [.condition]
          [sampleNode .identifier 16 17 [.left] [],
            sampleNode (.other "number") 20 21 [.right] []],
        sampleNode .updateExpression 23 26 [.increment]
          [sampleNode .identifier 23 24 [.argument] []],
        sampleNode .expressionStatement 28 34 [.body]
          [sampleNode .assignmentExpression 28 33 []
            [sampleNode .identifier 28 29 [.left] [],
              sampleNode .identifier 32 33 [.right] []]]]]

/-- A loop that counts. -/
def counting : Program :=
  ⟨"for (let i = 0; i < 2; i++) a = i;", .javascript, countingTree.number 0,
    countingTree.nodup_ids_number 0⟩

/-- If the test holds once, the parts of the loop are seen in this order, in the program and in its
graph. -/
theorem shows_iff_graph_sample : ∃ graph, counting.graph = .ok graph ∧
    (∀ oracle events,
      counting.Shows oracle events ↔ graph.Shows Condition.isAlways oracle events) ∧
    ∃ loop initializer condition increment body, counting.root.children = [loop] ∧
      loop.field? .initializer = some initializer ∧ loop.field? .condition = some condition ∧
      loop.field? .increment = some increment ∧ loop.field? .body = some body ∧
      let once : Oracle := fun seen _ => seen.length = 1
      let events : List RunEvent :=
        [.ran initializer, .tested condition true, .ran body, .ran increment,
          .tested condition false, .finished none]
      counting.Shows once events ∧ graph.Shows Condition.isAlways once events := by
  obtain ⟨graph, hgraph⟩ : ∃ graph, counting.graph = .ok graph := ⟨_, graph_of_statement rfl⟩
  have hshows := shows_iff_graph hgraph
  refine ⟨graph, hgraph, hshows, _, _, _, _, _, rfl, rfl, rfl, rfl, rfl, ?_⟩
  intro once events
  have hevents : counting.Shows once events := ⟨2, List.prefix_rfl⟩
  exact ⟨hevents, (hshows once events).mp hevents⟩

end Program

end DefUse
