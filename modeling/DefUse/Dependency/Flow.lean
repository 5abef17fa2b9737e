/-
# `Dependency.Flow` — reaching definitions along the graph

A definition is a variable's name with the assignment that gave it its value.
Going through a block, a read depends on the definitions of its variable that
are current there, and a write replaces them.  The analysis takes blocks from a
queue, each with the definitions that one predecessor hands on.  If a block has
seen all of them before, nothing happens; otherwise it is visited again with all
that reached it so far, and hands the outcome on to its successors.

The number of visits is bounded.  When the bound is hit with work left, the
result is marked as truncated.
-/
import DefUse.Dependency.Basic
import DefUse.Graph.Basic
import DefUse.Names

namespace DefUse

open DefUse.Tree

/-- The name that stands for every variable without one. -/
def unknownName : String :=
  "?"

/-- The usual bound on visits. -/
def defaultMaxVisits : Nat :=
  1000

/-- The definitions that are current at one point, as a set of pairs. -/
abbrev Definitions := List (String × Assignment)

namespace Definitions

/-- All definitions of two sets. -/
def union (known incoming : Definitions) : Definitions :=
  known ++ incoming.filter fun definition => !known.contains definition

/-- Are all incoming definitions known? -/
def covers (known incoming : Definitions) : Bool :=
  incoming.all known.contains

/-- The assignment becomes the only definition of the name. -/
def define (name : String) (assignment : Assignment) (definitions : Definitions) :
    Definitions :=
  (name, assignment) :: definitions.filter fun definition => definition.1 ≠ name

/-- The assignments that define a name, in document order. -/
def reaching (name : String) (definitions : Definitions) : List Assignment :=
  Assignment.arrange
    ((definitions.filter fun definition => definition.1 = name).map Prod.snd)

theorem mem_union {definition : String × Assignment} {known incoming : Definitions} :
    definition ∈ known.union incoming ↔ definition ∈ known ∨ definition ∈ incoming := by
  simp only [union, List.mem_append, List.mem_filter, Bool.not_eq_true',
    List.contains_eq_mem, decide_eq_false_iff_not]
  constructor
  · rintro (h | h)
    · exact Or.inl h
    · exact Or.inr h.1
  · rintro (h | h)
    · exact Or.inl h
    · by_cases hk : definition ∈ known
      · exact Or.inl hk
      · exact Or.inr ⟨h, hk⟩

theorem covers_iff {known incoming : Definitions} :
    known.covers incoming = true ↔ ∀ definition ∈ incoming, definition ∈ known := by
  simp [covers]

theorem mem_define {definition : String × Assignment} {name : String}
    {assignment : Assignment} {definitions : Definitions} :
    definition ∈ definitions.define name assignment ↔
      definition = (name, assignment) ∨ definition ∈ definitions ∧ definition.1 ≠ name := by
  simp [define]

theorem mem_reaching {assignment : Assignment} {name : String} {definitions : Definitions} :
    assignment ∈ definitions.reaching name ↔ (name, assignment) ∈ definitions := by
  simp only [reaching, Assignment.arrange, Sorted.mem_ofList, List.mem_map, List.mem_filter,
    decide_eq_true_eq]
  constructor
  · rintro ⟨definition, ⟨hmem, rfl⟩, rfl⟩
    exact hmem
  · intro h
    exact ⟨_, ⟨h, rfl⟩, rfl⟩

end Definitions

/-! ## Blocks -/

/-- What a block reads and writes, step by step. -/
structure BlockEffects where
  steps : List Effect
  /-- What the condition or the returned value reads. -/
  exitReads : List Site
deriving DecidableEq, Inhabited

/-- The effects of a block. -/
def Block.effects (block : Block) : Except AnalysisError BlockEffects := do
  let steps ← block.statements.mapM DefUse.effects
  let exitReads ← readsOf? block.exit.expression?
  return ⟨steps.flatten, exitReads⟩

/-- The effects of the reachable blocks. -/
def Graph.effects (graph : Graph) : Except AnalysisError (List (BlockId × BlockEffects)) :=
  graph.reachable.mapM fun block => do
    let effects ← block.effects
    return (block.id, effects)

/-- The state of the analysis inside a block. -/
structure Passage where
  definitions : Definitions
  reads : ReadMap
  events : List Event
deriving Inhabited

namespace Passage

/-- The name under which a variable is looked up. -/
def nameOf (names : Names) (read : Site) : String :=
  (names.get? read).getD unknownName

/-- A read depends on the current definitions of its variable. -/
def read (names : Names) (passage : Passage) (read : Site) : Passage :=
  let reaching := passage.definitions.reaching (nameOf names read)
  { passage with reads := passage.reads.record read reaching }

/-- A write replaces the definitions of its variable; a write to a variable
without a name is passed over. -/
def write (program : Program) (names : Names) (passage : Passage) (assignment : Assignment) :
    Passage :=
  let target := assignment.target
  match names.get? target with
  | some name => { passage with definitions := passage.definitions.define name assignment }
  | none =>
    let event := .unresolvedTarget (program.text target) target.line
    { passage with events := passage.events ++ [event] }

/-- The reads of an effect, then its write. -/
def step (program : Program) (names : Names) (passage : Passage) (effect : Effect) : Passage :=
  effect.write.toList.foldl (write program names) (effect.reads.foldl (read names) passage)

/-- Goes through a whole block. -/
def through (program : Program) (names : Names) (effects : BlockEffects) (passage : Passage) :
    Passage :=
  effects.exitReads.foldl (read names) (effects.steps.foldl (step program names) passage)

end Passage

/-! ## The iteration -/

/-- What is analysed: a graph with the effects of its blocks. -/
structure FlowProblem where
  program : Program
  graph : Graph
  names : Names
  effects : List (BlockId × BlockEffects)

/-- The state of the iteration. -/
structure Flow where
  /-- The definitions that reached each block visited so far. -/
  recorded : List (BlockId × Definitions)
  reads : ReadMap
  visits : Nat
  truncated : Bool
  events : List Event
deriving Inhabited

namespace Flow

/-- Nothing visited yet. -/
def start : Flow :=
  ⟨[], [], 0, false, []⟩

/-- Was the block visited with all these definitions? -/
def covers (flow : Flow) (id : BlockId) (incoming : Definitions) : Bool :=
  match flow.recorded.lookup id with
  | some known => known.covers incoming
  | none => false

/-- All definitions that have reached a block, with those that just come in. -/
def arriving (flow : Flow) (id : BlockId) (incoming : Definitions) : Definitions :=
  ((flow.recorded.lookup id).getD []).union incoming

/-- The way through a block with all that has reached it. -/
def passage (problem : FlowProblem) (id : BlockId) (incoming : Definitions) (flow : Flow) :
    Passage :=
  let entering := ⟨flow.arriving id incoming, flow.reads, flow.events⟩
  match problem.effects.lookup id with
  | some effects => entering.through problem.program problem.names effects
  | none => entering

/-- Visits a block. -/
def visit (problem : FlowProblem) (id : BlockId) (incoming : Definitions) (flow : Flow) :
    Flow :=
  let passage := flow.passage problem id incoming
  { recorded := (id, flow.arriving id incoming) :: flow.recorded.filter fun entry => entry.1 ≠ id
    reads := passage.reads
    visits := flow.visits + 1
    truncated := flow.truncated
    events := passage.events }

/-- Gives up. -/
def giveUp (maxVisits : Nat) (flow : Flow) : Flow :=
  { flow with truncated := true, events := flow.events ++ [.notConverged maxVisits] }

/-- Works through the queue, with at most `maxVisits` visits in all. -/
def run (problem : FlowProblem) (maxVisits : Nat) (queue : List (BlockId × Definitions))
    (flow : Flow) : Flow :=
  match queue with
  | [] => flow
  | (id, incoming) :: rest =>
    if flow.covers id incoming then run problem maxVisits rest flow
    else if flow.visits < maxVisits then
      let leaving := (flow.passage problem id incoming).definitions
      let next := (problem.graph.successors id).map fun next => (next, leaving)
      run problem maxVisits (rest ++ next) (flow.visit problem id incoming)
    else flow.giveUp maxVisits
termination_by (maxVisits - flow.visits, queue.length)
decreasing_by
  · exact Prod.Lex.right _ (by simp)
  · apply Prod.Lex.left
    simp only [visit]
    omega

/-- The dependencies found. -/
def dependencies (flow : Flow) : Dependencies :=
  ⟨flow.reads, flow.truncated, flow.events⟩

end Flow

/-- The dependencies of a program along a graph of it. -/
def Program.flow (program : Program) (graph : Graph) (names : Names) (maxVisits : Nat) :
    Except AnalysisError Dependencies := do
  let effects ← graph.effects
  let problem := ⟨program, graph, names, effects⟩
  return (Flow.run problem maxVisits [(graph.entry, [])] Flow.start).dependencies

end DefUse
