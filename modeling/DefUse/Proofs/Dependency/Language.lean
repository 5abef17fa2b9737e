/-
# `Proofs.Dependency.Language` — what is done on paths is what is seen in traces

Paths go from block to block, traces from event to event.  To compare what graphs of
different shape do, paths are read as traces.

What is of interest in a statement or an expression is a parameter, its *tally*: the
actions that it makes, or the refusals it meets.  A tally adds up along a path, and it
adds up along a trace.  If the edges of the paths are the moves of a view of the
branches, and nothing that the view leaves out is in the tally, both give the same
lists (`Graph.counts_iff_traces`).  So graphs with the same traces have the same
lists, whatever their blocks are.

Reads, and what reaches them, can be said with these lists alone
(`Graph.reaches_iff_counts`).
-/
import DefUse.Proofs.Dependency.Path
import DefUse.Proofs.Walk.Trace

namespace DefUse

open DefUse.Tree

/-- What statements and expressions count for. -/
structure Tally (α : Type) where
  statement : Node → List α
  expression : Node → List α

namespace Tally

variable {α : Type} (tally : Tally α)

/-- What is evaluated on the way out. -/
def ofExit (exit : Exit) : List α :=
  exit.expression?.toList.flatMap tally.expression

def ofCode (code : Code) : List α :=
  code.statements.flatMap tally.statement ++ tally.ofExit code.exit

def ofEvent : RunEvent → List α
  | .ran statement => tally.statement statement
  | .tested condition _ => tally.expression condition
  | .finished value => value.toList.flatMap tally.expression

def ofEvents (events : List RunEvent) : List α :=
  events.flatMap tally.ofEvent

@[simp] theorem ofEvents_nil : tally.ofEvents [] = [] := rfl

@[simp] theorem ofEvents_append (first second : List RunEvent) :
    tally.ofEvents (first ++ second) = tally.ofEvents first ++ tally.ofEvents second :=
  List.flatMap_append

@[simp] theorem ofEvents_cons (event : RunEvent) (events : List RunEvent) :
    tally.ofEvents (event :: events) = tally.ofEvent event ++ tally.ofEvents events :=
  List.flatMap_cons

theorem ofEvents_ran (statements : List Node) :
    tally.ofEvents (statements.map .ran) = statements.flatMap tally.statement := by
  rw [ofEvents, List.flatMap_map]
  rfl

@[simp] theorem ofExit_ret (value : Option Node) :
    tally.ofExit (.ret value) = value.toList.flatMap tally.expression := by
  cases value <;> rfl

end Tally

/-- Everything that is read and written. -/
def Tally.actions : Tally Action :=
  ⟨statementActions, expressionActions⟩

namespace Graph

section Counts

variable {α : Type} (graph : Graph) (tally : Tally α) (edge : BlockId → BlockId → Prop)

/-- What a block counts for. -/
def tallyAt (id : BlockId) : List α :=
  match graph.code? id with
  | some code => tally.ofCode code
  | none => []

/-- What blocks count for, one after the other. -/
def tallyAlong (passed : List BlockId) : List α :=
  passed.flatMap (graph.tallyAt tally)

/-- The list is counted on a path, up to some point in its last block. -/
def Counts (items : List α) : Prop :=
  ∃ passed id, graph.Path edge passed id ∧
    items <+: graph.tallyAlong tally passed ++ graph.tallyAt tally id

/-- The edges are the moves of the view, and what a move shows counts for what is evaluated. -/
structure Agrees (view : View) : Prop where
  edges : ∀ id code, graph.Reachable id → graph.code? id = some code → ∀ next,
    edge id next ↔ ∃ event, (event, next) ∈ code.exit.moves view
  moves : ∀ id code, graph.Reachable id → graph.code? id = some code → ∀ event next,
    (event, next) ∈ code.exit.moves view → tally.ofEvents event.toList = tally.ofExit code.exit

end Counts

variable {α : Type} {graph : Graph} {tally : Tally α} {edge : BlockId → BlockId → Prop}
  {view : View}

theorem tallyAt_of_code? {id : BlockId} {code : Code} (h : graph.code? id = some code) :
    graph.tallyAt tally id = tally.ofCode code := by
  rw [tallyAt, h]

@[simp] theorem tallyAlong_nil : graph.tallyAlong tally [] = [] := rfl

theorem tallyAlong_concat (passed : List BlockId) (id : BlockId) :
    graph.tallyAlong tally (passed ++ [id]) =
      graph.tallyAlong tally passed ++ graph.tallyAt tally id := by
  rw [tallyAlong, List.flatMap_append, List.flatMap_singleton]
  rfl

/-! ## From paths to traces -/

/-- Statements are run before the rest. -/
theorem Trace.runs {statements : List Node} {exit : Exit} {events : List RunEvent}
    (h : graph.Trace view ⟨[], exit⟩ events) :
    graph.Trace view ⟨statements, exit⟩ (statements.map .ran ++ events) := by
  induction statements with
  | nil => exact h
  | cons statement rest ih => exact .run ih

theorem Agrees.reachable (hagrees : graph.Agrees tally edge view) (hwired : graph.Wired)
    {passed : List BlockId} {id : BlockId} (hpath : graph.Path edge passed id) :
    graph.Reachable id := by
  induction hpath with
  | start => exact .entry hwired.entry
  | @step passed id next _ hnext ih =>
      obtain ⟨code, hcode⟩ := code?_of_lt ih.lt
      obtain ⟨event, hmove⟩ := (hagrees.edges id code ih hcode next).mp hnext
      have hedge : next ∈ graph.successors id := by
        rw [successors_of_code? hcode]
        exact Exit.mem_successors_of_moves hmove
      exact .step ih hedge (hwired.targets _ _ hedge)

/-- The events of a path, after which every trace of its last block can follow. -/
theorem Agrees.exists_events (hagrees : graph.Agrees tally edge view) (hwired : graph.Wired)
    {passed : List BlockId} {id : BlockId} {code : Code} (hpath : graph.Path edge passed id)
    (hcode : graph.code? id = some code) :
    ∃ events, tally.ofEvents events = graph.tallyAlong tally passed ∧
      ∀ more, graph.Trace view code more → graph.Traces view (events ++ more) := by
  induction hpath generalizing code with
  | start =>
      refine ⟨[], rfl, ?_⟩
      intro more hmore
      exact ⟨code, hcode, hmore⟩
  | @step passed id next hpath hnext ih =>
      have hid := hagrees.reachable hwired hpath
      obtain ⟨⟨statements, exit⟩, hown⟩ := code?_of_lt hid.lt
      obtain ⟨events, hevents, hfollow⟩ := ih hown
      obtain ⟨event, hmove⟩ := (hagrees.edges id _ hid hown next).mp hnext
      refine ⟨events ++ (statements.map .ran ++ event.toList), ?_, ?_⟩
      · rw [tallyAlong_concat, tallyAt_of_code? hown, tally.ofEvents_append, tally.ofEvents_append,
          hevents, tally.ofEvents_ran, hagrees.moves id _ hid hown event next hmove]
        rfl
      · intro more hmore
        rw [List.append_assoc, List.append_assoc]
        exact hfollow _ (Trace.runs (.move hmove hcode hmore))

/-- Going through a block and out of it. -/
theorem Agrees.exists_through (hagrees : graph.Agrees tally edge view) (hwired : graph.Wired)
    {id : BlockId} {code : Code} (hid : graph.Reachable id) (hcode : graph.code? id = some code) :
    ∃ events, graph.Trace view code events ∧ tally.ofEvents events = tally.ofCode code := by
  obtain ⟨statements, exit⟩ := code
  have hrange := hwired.exits hcode
  -- with the events of the way out
  have hout : ∃ events, graph.Trace view ⟨[], exit⟩ events ∧
      tally.ofEvents events = tally.ofExit exit := by
    have hmoves := hagrees.moves id _ hid hcode
    have hleave : ∀ event next, (event, next) ∈ exit.moves view →
        ∃ events, graph.Trace view ⟨[], exit⟩ events ∧
          tally.ofEvents events = tally.ofExit exit := by
      intro event next hmove
      obtain ⟨target, htarget⟩ :=
        code?_of_lt (hrange.2 next (Exit.mem_successors_of_moves hmove))
      refine ⟨event.toList ++ [], .move hmove htarget .stop, ?_⟩
      rw [List.append_nil]
      exact hmoves event next hmove
    cases exit with
    | ret value =>
        refine ⟨[.finished value], .finish, ?_⟩
        rw [tally.ofExit_ret]
        exact List.append_nil _
    | unset => cases hrange.1
    | jump next => exact hleave none next (List.mem_singleton.mpr rfl)
    | branch condition onTrue onFalse =>
        cases hview : view condition with
        | taken =>
            refine hleave none onTrue ?_
            simp [Exit.moves, hview]
        | either =>
            refine hleave none onTrue ?_
            simp [Exit.moves, hview]
        | asked node =>
            refine hleave (some (.tested node true)) onTrue ?_
            simp [Exit.moves, hview]
  obtain ⟨events, htrace, hevents⟩ := hout
  refine ⟨statements.map .ran ++ events, Trace.runs htrace, ?_⟩
  rw [tally.ofEvents_append, tally.ofEvents_ran, hevents]
  rfl

/-! ## From traces to paths -/

/-- What is seen from the middle of a block on is counted on a path that goes on from there. -/
theorem Agrees.exists_path (hagrees : graph.Agrees tally edge view) (hwired : graph.Wired)
    {code : Code} {events : List RunEvent} (htrace : graph.Trace view code events)
    {passed : List BlockId} {id : BlockId} (hpath : graph.Path edge passed id) (done : List Node)
    (hcode : graph.code? id = some ⟨done ++ code.statements, code.exit⟩) :
    ∃ passed' id', graph.Path edge passed' id' ∧
      graph.tallyAlong tally passed ++ (done.flatMap tally.statement ++ tally.ofEvents events) <+:
        graph.tallyAlong tally passed' ++ graph.tallyAt tally id' := by
  induction htrace generalizing passed id done with
  | @stop code =>
      refine ⟨passed, id, hpath, ?_⟩
      rw [tallyAt_of_code? hcode, List.prefix_append_right_inj, tally.ofEvents_nil,
        List.append_nil, Tally.ofCode, List.flatMap_append, List.append_assoc]
      exact List.prefix_append _ _
  | @run statement statements exit events _ ih =>
      have hcode' : graph.code? id = some ⟨(done ++ [statement]) ++ statements, exit⟩ := by
        rw [hcode, List.append_assoc]
        rfl
      obtain ⟨passed', id', hpath', hprefix⟩ := ih hpath (done ++ [statement]) hcode'
      refine ⟨passed', id', hpath', ?_⟩
      rw [List.flatMap_append, List.flatMap_singleton, List.append_assoc] at hprefix
      exact hprefix
  | @finish value =>
      refine ⟨passed, id, hpath, [], ?_⟩
      rw [tallyAt_of_code? hcode, Tally.ofCode, tally.ofExit_ret]
      simp [Tally.ofEvent]
  | @move exit event next target events hmove hnext _ ih =>
      have hid := hagrees.reachable hwired hpath
      have hedge := (hagrees.edges id _ hid hcode next).mpr ⟨event, hmove⟩
      obtain ⟨passed', id', hpath', hprefix⟩ := ih (hpath.step hedge) [] hnext
      refine ⟨passed', id', hpath', ?_⟩
      rw [tallyAlong_concat, tallyAt_of_code? hcode, Tally.ofCode, List.append_nil,
        ← hagrees.moves id _ hid hcode event next hmove] at hprefix
      rw [tally.ofEvents_append]
      simpa only [List.flatMap_nil, List.nil_append, List.append_assoc] using hprefix

/-- What is counted on paths is what is seen in traces. -/
theorem counts_iff_traces (hagrees : graph.Agrees tally edge view) (hwired : graph.Wired)
    (items : List α) : graph.Counts tally edge items ↔
      ∃ events, graph.Traces view events ∧ items <+: tally.ofEvents events := by
  constructor
  · rintro ⟨passed, id, hpath, hprefix⟩
    have hid := hagrees.reachable hwired hpath
    obtain ⟨code, hcode⟩ := code?_of_lt hid.lt
    obtain ⟨events, hevents, hfollow⟩ := hagrees.exists_events hwired hpath hcode
    obtain ⟨more, hmore, hthrough⟩ := hagrees.exists_through hwired hid hcode
    refine ⟨events ++ more, hfollow more hmore, ?_⟩
    rw [tally.ofEvents_append, hevents, hthrough, ← tallyAt_of_code? hcode]
    exact hprefix
  · rintro ⟨events, ⟨code, hcode, htrace⟩, hprefix⟩
    obtain ⟨passed, id, hpath, hpath'⟩ := hagrees.exists_path hwired htrace .start [] hcode
    exact ⟨passed, id, hpath, hprefix.trans hpath'⟩

/-- Counting up to an item is coming to it in some block. -/
theorem counts_concat_iff (before : List α) (item : α) :
    graph.Counts tally edge (before ++ [item]) ↔ ∃ passed id front back,
      graph.Path edge passed id ∧ graph.tallyAt tally id = front ++ item :: back ∧
        before = graph.tallyAlong tally passed ++ front := by
  constructor
  · rintro ⟨passed, id, hpath, hprefix⟩
    -- the item is in the last block, or it was met before
    have hlast : ∀ {start block : List α}, before ++ [item] <+: start ++ block →
        before ++ [item] <+: start ∨
          ∃ front back, block = front ++ item :: back ∧ before = start ++ front := by
      rintro start block ⟨rest, hrest⟩
      rcases List.append_eq_append_iff.mp hrest with ⟨middle, hstart, -⟩ | ⟨middle, hstart, hblock⟩
      · exact .inl ⟨middle, hstart.symm⟩
      · rcases List.eq_nil_or_concat middle with rfl | ⟨front, last, rfl⟩
        · rw [List.append_nil] at hstart
          exact .inl (hstart ▸ List.prefix_rfl)
        · rw [List.concat_eq_append, ← List.append_assoc] at hstart
          obtain ⟨rfl, hitem⟩ := List.append_inj' hstart rfl
          cases hitem
          refine .inr ⟨front, rest, ?_, rfl⟩
          rw [hblock, List.concat_eq_append, List.append_assoc]
          rfl
    induction hpath with
    | start =>
        rcases hlast hprefix with hprefix | ⟨front, back, hblock, hbefore⟩
        · simp at hprefix
        · exact ⟨[], graph.entry, front, back, .start, hblock, hbefore⟩
    | @step passed id next hpath hnext ih =>
        rcases hlast hprefix with hprefix | ⟨front, back, hblock, hbefore⟩
        · rw [tallyAlong_concat] at hprefix
          exact ih hprefix
        · exact ⟨passed ++ [id], next, front, back, hpath.step hnext, hblock, hbefore⟩
  · rintro ⟨passed, id, front, back, hpath, hblock, rfl⟩
    refine ⟨passed, id, hpath, ?_⟩
    rw [hblock, List.append_assoc, List.prefix_append_right_inj]
    exact ⟨back, by simp⟩

end Graph

/-! ## Two views -/

namespace Exit

/-- Seen from both sides of every branch, moves lead to all successors. -/
theorem mem_successors_iff_moves {exit : Exit} {next : BlockId} :
    next ∈ exit.successors ↔ ∃ event, (event, next) ∈ exit.moves Condition.bothSides := by
  constructor
  · intro hnext
    cases exit with
    | ret value => cases hnext
    | unset => cases hnext
    | jump target =>
        cases List.mem_singleton.mp hnext
        exact ⟨none, List.mem_singleton.mpr rfl⟩
    | branch condition onTrue onFalse =>
        simp only [successors, edges, List.map_cons, List.map_nil, List.mem_cons,
          List.not_mem_nil, or_false] at hnext
        cases condition with
        | always => exact ⟨none, by simp [moves, Condition.bothSides, hnext]⟩
        | test node =>
            rcases hnext with rfl | rfl
            · exact ⟨some (.tested node true), List.mem_cons_self⟩
            · exact ⟨some (.tested node false), List.mem_cons_of_mem _ List.mem_cons_self⟩
  · rintro ⟨event, hmove⟩
    exact mem_successors_of_moves hmove

/-- A move then shows what is evaluated. -/
theorem ofEvents_of_moves {α : Type} (tally : Tally α) {exit : Exit} {event : Option RunEvent}
    {next : BlockId} (h : (event, next) ∈ exit.moves Condition.bothSides) :
    tally.ofEvents event.toList = tally.ofExit exit := by
  cases exit with
  | ret value => cases h
  | unset => cases h
  | jump target =>
      cases List.mem_singleton.mp h
      rfl
  | branch condition onTrue onFalse =>
      cases condition with
      | always =>
          simp only [moves, Condition.bothSides, List.mem_cons, List.not_mem_nil, or_false,
            Prod.mk.injEq] at h
          rcases h with ⟨rfl, -⟩ | ⟨rfl, -⟩ <;> rfl
      | test node =>
          simp only [moves, Condition.bothSides, List.mem_cons, List.not_mem_nil, or_false,
            Prod.mk.injEq] at h
          rcases h with ⟨rfl, -⟩ | ⟨rfl, -⟩ <;> rfl

/-- To take branches that are always taken unseen is to settle them. -/
theorem moves_outlook (exit : Exit) :
    exit.moves (Condition.outlook Condition.isAlwaysTrue) =
      exit.settle.moves Condition.bothSides := by
  cases exit with
  | ret value => rfl
  | unset => rfl
  | jump target => rfl
  | branch condition onTrue onFalse =>
      cases condition with
      | always => rfl
      | test node =>
          rw [settle]
          split
          · rename_i htrue
            simp [moves, Condition.outlook, Condition.question?, htrue]
          · rename_i htrue
            simp [moves, Condition.outlook, Condition.question?, htrue, Condition.bothSides]

theorem settle_settle (exit : Exit) : exit.settle.settle = exit.settle := by
  cases exit with
  | ret value => rfl
  | unset => rfl
  | jump target => rfl
  | branch condition onTrue onFalse =>
      cases htrue : condition.isAlwaysTrue <;> simp [settle, htrue]

end Exit

namespace Graph

variable {α : Type} {graph : Graph} {tally : Tally α}

/-- All edges, and both sides of every branch. -/
theorem agrees_bothSides (graph : Graph) (tally : Tally α) :
    graph.Agrees tally graph.Edge Condition.bothSides where
  edges := by
    intro id code _ hcode next
    rw [Edge, successors_of_code? hcode]
    exact Exit.mem_successors_iff_moves
  moves := by
    intro id code _ _ event next hmove
    exact Exit.ofEvents_of_moves tally hmove

theorem liveEdge_iff {id next : BlockId} :
    graph.LiveEdge id next ↔ next ∈ (graph.exitOf id).settle.successors := by
  rw [LiveEdge]
  cases graph.exitOf id with
  | ret value => exact Iff.rfl
  | unset => exact Iff.rfl
  | jump target => exact Iff.rfl
  | branch condition onTrue onFalse =>
      cases htrue : condition.isAlwaysTrue <;>
        simp [Exit.settle, htrue, Exit.successors, Exit.edges]

/-- The live edges, and branches that are always taken unseen, if nothing is counted in what
they test. -/
theorem agrees_outlook
    (hplain : ∀ id code, graph.Reachable id → graph.code? id = some code →
      tally.ofExit code.exit.settle = tally.ofExit code.exit) :
    graph.Agrees tally graph.LiveEdge (Condition.outlook Condition.isAlwaysTrue) where
  edges := by
    intro id code _ hcode next
    rw [liveEdge_iff, exitOf_of_code? hcode, Exit.moves_outlook]
    exact Exit.mem_successors_iff_moves
  moves := by
    intro id code hid hcode event next hmove
    rw [Exit.moves_outlook] at hmove
    rw [Exit.ofEvents_of_moves tally hmove]
    exact hplain id code hid hcode

/-! ## Reads and what reaches them -/

section Reads

variable {edge : BlockId → BlockId → Prop} {names : Names} {read : Site}

/-- A read on a path is an action that is come to. -/
theorem read_iff_counts :
    (∃ passed id, graph.Path edge passed id ∧ .read read ∈ graph.actionsAt id) ↔
      ∃ before, graph.Counts .actions edge (before ++ [.read read]) := by
  simp only [counts_concat_iff]
  constructor
  · rintro ⟨passed, id, hpath, hread⟩
    obtain ⟨front, back, hblock⟩ := List.append_of_mem hread
    exact ⟨_, passed, id, front, back, hpath, hblock, rfl⟩
  · rintro ⟨before, passed, id, front, back, hpath, hblock, -⟩
    have hread : Action.read read ∈ graph.tallyAt .actions id := by
      rw [hblock]
      exact List.mem_append_right _ List.mem_cons_self
    exact ⟨passed, id, hpath, hread⟩

/-- What reaches a read is written last before the read is come to. -/
theorem reaches_iff_counts {assignment : Assignment} :
    graph.Reaches edge names assignment read ↔
      ∃ name before, names.get? read = some name ∧
        graph.Counts .actions edge (before ++ [.read read]) ∧
        LastWrite names name assignment before := by
  simp only [counts_concat_iff]
  constructor
  · rintro ⟨name, passed, id, before, after, hname, hpath, hblock, hlast⟩
    exact ⟨name, _, hname, ⟨passed, id, before, after, hpath, hblock, rfl⟩, hlast⟩
  · rintro ⟨name, before, hname, ⟨passed, id, front, back, hpath, hblock, rfl⟩, hlast⟩
    exact ⟨name, passed, id, front, back, hname, hpath, hblock, hlast⟩

/-- Graphs on whose paths the same actions are made have the same map. -/
theorem ReachingMap.transfer {other : Graph} {edge' : BlockId → BlockId → Prop} {map : ReadMap}
    (hmap : graph.ReachingMap edge names map)
    (hcounts : ∀ actions, graph.Counts .actions edge actions ↔ other.Counts .actions edge' actions) :
    other.ReachingMap edge' names map where
  ordered := hmap.ordered
  arranged := hmap.arranged
  reads := by
    intro site
    rw [hmap.reads, read_iff_counts, read_iff_counts]
    simp only [hcounts]
  reaches := by
    intro site assignments hnote assignment
    rw [hmap.reaches site assignments hnote, reaches_iff_counts, reaches_iff_counts]
    simp only [hcounts]

end Reads

end Graph

end DefUse
