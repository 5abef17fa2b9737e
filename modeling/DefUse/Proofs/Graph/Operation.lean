/-
# `Proofs.Graph.Operation` — a graph never contradicts itself

Beside the four passes a caller may choose several of them at once, compute the
parents anew and run the check, in any order and any number of times.  What every
caller can rely on is said here without the functions that compute it: indices
lead to the blocks that carry them, reachable blocks have an exit, and their
parents are the reachable blocks with an edge to them (`Graph.Consistent`).

It holds of the graph of every program whose statements can be read, and after
every operation, and no operation fails (`Program.perform_consistent`).  The
point is that parents are right *before* each operation: two passes read them
while they change the graph, and merging checks them without computing them
once more at its end.
-/
import DefUse.Proofs.Graph.Build
import DefUse.Proofs.Graph.Pass

namespace DefUse

/-- What can be done with a graph once it is built. -/
inductive Operation where
  | pass (pass : Pass)
  /-- The chosen passes, one after the other. -/
  | simplify (choice : Simplification)
  /-- Computes the parents anew. -/
  | setParents
  /-- Runs the check. -/
  | validate
deriving DecidableEq, Inhabited

namespace Graph

/-- Carries an operation out. -/
def perform (graph : Graph) : Operation → Except AnalysisError Graph
  | .pass pass => graph.apply pass
  | .simplify choice => graph.simplify choice
  | .setParents => .ok graph.setParents
  | .validate => graph.validate

/-- The index is that of a block, and the block says so. -/
def Indexes (graph : Graph) (id : BlockId) : Prop :=
  ∃ block, graph.block? id = some block ∧ block.id = id

/-- Indices, exits and parents say the same thing about the graph. -/
structure Consistent (graph : Graph) : Prop where
  entry : graph.Indexes graph.entry
  /-- Also from blocks that cannot be reached. -/
  targets : ∀ id, ∀ next ∈ graph.successors id, graph.Indexes next
  decided : ∀ id, graph.Reachable id → graph.exitOf id ≠ .unset
  parents : ∀ id block, graph.Reachable id → graph.block? id = some block → ∀ parent,
    parent ∈ block.parents ↔ graph.Reachable parent ∧ id ∈ graph.successors parent
  /-- No parent is listed twice. -/
  ascending : ∀ id block, graph.Reachable id → graph.block? id = some block →
    block.parents.Pairwise (· < ·)

variable {graph : Graph}

theorem Wired.indexes (h : graph.Wired) {id : BlockId} (hid : id < graph.blocks.size) :
    graph.Indexes id := by
  obtain ⟨block, hblock⟩ := block?_of_lt hid
  exact ⟨block, hblock, h.ids id block hblock⟩

theorem WellFormed.consistent (h : graph.WellFormed) : graph.Consistent where
  entry := h.indexes h.entry
  targets := fun id next hnext => h.indexes (h.targets id next hnext)
  decided := by
    intro id hid hunset
    obtain ⟨block, hblock⟩ := block?_of_lt hid.lt
    have hdecided := h.decided id block hblock
    rw [← exitOf_of_block? hblock, hunset] at hdecided
    cases hdecided
  parents := by
    intro id block hid hblock parent
    rw [h.mem_parents hid hblock, and_comm]
  ascending := by
    intro id block hid hblock
    rw [h.parents id block hid hblock, parentsAmong]
    exact List.pairwise_lt_range.filter _

/-- An operation on a well formed graph succeeds, and the result is well formed. -/
theorem WellFormed.perform (h : graph.WellFormed) (operation : Operation) :
    ∃ next, graph.perform operation = .ok next ∧ next.WellFormed := by
  cases operation with
  | pass pass => exact ⟨_, h.apply pass⟩
  | simplify choice => exact ⟨_, h.foldlM_apply choice.passes⟩
  | setParents => exact ⟨_, rfl, h.toWired.setParents⟩
  | validate => exact ⟨_, h.validate, h⟩

/-- So does a sequence of operations. -/
theorem WellFormed.foldlM_perform (h : graph.WellFormed) (operations : List Operation) :
    ∃ last, operations.foldlM Graph.perform graph = .ok last ∧ last.WellFormed := by
  induction operations generalizing graph with
  | nil => exact ⟨graph, rfl, h⟩
  | cons operation rest ih =>
      obtain ⟨next, hnext, hwf⟩ := h.perform operation
      obtain ⟨last, hlast, hwf'⟩ := ih hwf
      refine ⟨last, ?_, hwf'⟩
      rw [List.foldlM_cons, hnext]
      exact hlast

end Graph

namespace Program

/-- A program whose statements can be read has a consistent graph, and no sequence of operations
fails on it or leaves an inconsistent one behind. -/
theorem perform_consistent {program : Program} {statement : Statement}
    (h : program.statement = .ok statement) :
    ∃ built, program.graph = .ok built ∧ built.Consistent ∧
      ∀ operations : List Operation, ∃ graph,
        operations.foldlM Graph.perform built = .ok graph ∧ graph.Consistent := by
  have hbuilt := graph_of_statement h
  have hwf := wellFormed_graph hbuilt
  refine ⟨_, hbuilt, hwf.consistent, ?_⟩
  intro operations
  obtain ⟨graph, hgraph, hwf'⟩ := hwf.foldlM_perform operations
  exact ⟨graph, hgraph, hwf'.consistent⟩

theorem perform_consistent_sample : ∃ statement built graph,
    sample.statement = .ok statement ∧ sample.graph = .ok built ∧
    [.pass .split, .validate, .simplify {}, .setParents, .pass .mergeChains].foldlM
      Graph.perform built = .ok graph ∧ graph.Consistent := by
  have hstatement : ∃ statement, sample.statement = .ok statement := ⟨_, rfl⟩
  obtain ⟨statement, hstatement⟩ := hstatement
  obtain ⟨built, hbuilt, -, hrun⟩ := perform_consistent hstatement
  obtain ⟨graph, hgraph, hconsistent⟩ :=
    hrun [.pass .split, .validate, .simplify {}, .setParents, .pass .mergeChains]
  exact ⟨statement, built, graph, hstatement, hbuilt, hgraph, hconsistent⟩

end Program

end DefUse
