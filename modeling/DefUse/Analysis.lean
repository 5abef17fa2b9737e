/-
# `Analysis` — everything about one program

The whole way from a program to its graph and its dependencies, under a
configuration.
-/
import DefUse.Dependency.Flow
import DefUse.Dependency.Lexical
import DefUse.Diagram.Basic
import DefUse.Graph.Build
import DefUse.Graph.Pass

namespace DefUse

/-- The settings of an analysis. -/
structure Config where
  /-- The grammar the source is read with. -/
  dialect : Dialect := .typescript
  /-- The passes run on the graph before dependencies are computed. -/
  simplify : Simplification := {}
  /-- The bound on visits of blocks. -/
  maxVisits : Nat := defaultMaxVisits
  /-- Are dependencies drawn in diagrams? -/
  dependsEdges : Bool := true
deriving DecidableEq, Inhabited

/-- Everything computed for one program. -/
structure Analysis where
  /-- The graph after the chosen passes. -/
  graph : Graph
  names : Names
  dependencies : Dependencies

namespace Program

/-- Analyses a program along its flow of control. -/
def analyze (program : Program) (config : Config) : Except AnalysisError Analysis := do
  let built ← program.graph
  let graph ← built.simplify config.simplify
  let names := program.names
  let dependencies ← program.flow graph names config.maxVisits
  return ⟨graph, names, dependencies⟩

/-- Analyses a program with the dependencies of its text alone. -/
def analyzeLexical (program : Program) (config : Config) : Except AnalysisError Analysis := do
  let built ← program.graph
  let graph ← built.simplify config.simplify
  let names := program.names
  let dependencies ← program.lexical
  return ⟨graph, names, dependencies⟩

end Program

/-- The diagram of an analysis, with dependencies if the configuration asks for them. -/
def Analysis.diagram (program : Program) (config : Config) (analysis : Analysis) : Diagram :=
  Diagram.ofGraph program analysis.graph
    (if config.dependsEdges then some analysis.dependencies else none)

end DefUse
