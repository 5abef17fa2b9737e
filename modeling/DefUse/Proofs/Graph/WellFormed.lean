/-
# `Proofs.Graph.WellFormed` — graphs that pass their own check

A graph is *wired* if its indices mean something: every block knows its index,
the entry and the target of every edge exist, and no exit is undecided.  It is
*well formed* if besides each reachable block lists exactly its reachable
parents.

A wired graph becomes well formed by computing its parents anew
(`Wired.setParents`), and a well formed graph has no defect
(`WellFormed.validate`).  So of a change that ends in `refresh` only the wiring
has to be shown.
-/
import DefUse.Proofs.Graph.Check

namespace DefUse

/-- The exit is decided, and its edges lead to the first `size` blocks. -/
def Exit.Within (size : Nat) (exit : Exit) : Prop :=
  exit.isUnset = false ∧ ∀ next ∈ exit.successors, next < size

namespace Exit

@[simp] theorem within_ret (size : Nat) (value : Option Tree.Node) :
    (ret value).Within size :=
  ⟨rfl, fun _ h => absurd h List.not_mem_nil⟩

@[simp] theorem within_jump {size : Nat} {next : BlockId} :
    (jump next).Within size ↔ next < size := by
  simp [Within, isUnset, successors, edges]

@[simp] theorem within_branch {size : Nat} {condition : Condition} {onTrue onFalse : BlockId} :
    (branch condition onTrue onFalse).Within size ↔ onTrue < size ∧ onFalse < size := by
  simp [Within, isUnset, successors, edges]

theorem Within.mono {exit : Exit} {size larger : Nat} (h : exit.Within size)
    (hle : size ≤ larger) : exit.Within larger :=
  ⟨h.1, fun next hnext => Nat.lt_of_lt_of_le (h.2 next hnext) hle⟩

end Exit

namespace Graph

/-- Indices are in range and exits are decided. -/
structure Wired (graph : Graph) : Prop where
  /-- A block knows its index. -/
  ids : ∀ id block, graph.block? id = some block → block.id = id
  /-- The entry exists. -/
  entry : graph.entry < graph.blocks.size
  /-- Edges lead to blocks that exist. -/
  targets : ∀ id, ∀ next ∈ graph.successors id, next < graph.blocks.size
  /-- No exit is undecided. -/
  decided : ∀ id block, graph.block? id = some block → block.exit.isUnset = false

theorem Wired.closed {graph : Graph} (h : graph.Wired) : graph.Closed :=
  ⟨h.entry, h.targets⟩

/-- The graph is wired, and its reachable blocks know their parents. -/
structure WellFormed (graph : Graph) : Prop extends Wired graph where
  parents : ∀ id block, graph.Reachable id → graph.block? id = some block →
    block.parents = graph.parentsAmong graph.order id

/-! ## Parents -/

theorem mem_parentsAmong {graph : Graph} {order : List BlockId} {parent id : BlockId} :
    parent ∈ graph.parentsAmong order id ↔ id ∈ graph.successors parent ∧ parent ∈ order := by
  simp only [parentsAmong, List.mem_filter, List.mem_range, Bool.and_eq_true,
    List.contains_iff_mem]
  exact ⟨fun h => h.2, fun h => ⟨lt_of_mem_successors h.1, h⟩⟩

/-- The parents of a block of a well formed graph: the reachable blocks with an edge to it. -/
theorem WellFormed.mem_parents {graph : Graph} (h : graph.WellFormed) {id parent : BlockId}
    {block : Block} (hreach : graph.Reachable id) (hblock : graph.block? id = some block) :
    parent ∈ block.parents ↔ id ∈ graph.successors parent ∧ graph.Reachable parent := by
  rw [h.parents id block hreach hblock, mem_parentsAmong, mem_order]

/-- The computed parents do not depend on parents. -/
theorem parentsAmong_setParents (graph : Graph) (id : BlockId) :
    graph.setParents.parentsAmong graph.setParents.order id =
      graph.parentsAmong graph.order id := by
  rw [parentsAmong, parentsAmong, size_setParents]
  refine List.filter_congr ?_
  intro parent _
  have horder : graph.setParents.order.contains parent = graph.order.contains parent := by
    rw [Bool.eq_iff_iff, List.contains_iff_mem, List.contains_iff_mem, mem_order, mem_order,
      reachable_setParents]
  rw [successors_setParents, horder]

theorem Wired.setParents {graph : Graph} (h : graph.Wired) : graph.setParents.WellFormed where
  ids := by
    intro id block hblock
    rw [block?_setParents] at hblock
    obtain ⟨old, hold, rfl⟩ := Option.map_eq_some_iff.mp hblock
    exact h.ids id old hold
  entry := by
    rw [size_setParents]
    exact h.entry
  targets := by
    intro id next hnext
    rw [successors_setParents] at hnext
    rw [size_setParents]
    exact h.targets id next hnext
  decided := by
    intro id block hblock
    rw [block?_setParents] at hblock
    obtain ⟨old, hold, rfl⟩ := Option.map_eq_some_iff.mp hblock
    exact h.decided id old hold
  parents := by
    intro id block _ hblock
    rw [block?_setParents] at hblock
    obtain ⟨old, -, rfl⟩ := Option.map_eq_some_iff.mp hblock
    exact (parentsAmong_setParents graph id).symm

/-- The wiring read off the code of the blocks alone. -/
theorem wired_of_code? {graph : Graph}
    (ids : ∀ id block, graph.block? id = some block → block.id = id)
    (entry : graph.entry < graph.blocks.size)
    (exits : ∀ id code, graph.code? id = some code → code.exit.Within graph.blocks.size) :
    graph.Wired where
  ids := ids
  entry := entry
  targets := by
    intro id next hnext
    obtain ⟨code, hcode⟩ := code?_of_lt (lt_of_mem_successors hnext)
    rw [successors_of_code? hcode] at hnext
    exact (exits id code hcode).2 next hnext
  decided := fun id block hblock => (exits id block.code (code?_of_block? hblock)).1

theorem Wired.exits {graph : Graph} (h : graph.Wired) {id : BlockId} {code : Code}
    (hcode : graph.code? id = some code) : code.exit.Within graph.blocks.size := by
  obtain ⟨block, hblock, rfl⟩ := block?_of_code? hcode
  refine ⟨h.decided id block hblock, ?_⟩
  intro next hnext
  rw [← successors_of_code? hcode] at hnext
  exact h.targets id next hnext

/-- Changing what cannot be reached makes nothing reachable. -/
theorem reachable_of_agree {graph other : Graph} (hwired : graph.Wired)
    (hentry : graph.entry = other.entry)
    (h : ∀ id, graph.Reachable id → graph.code? id = other.code? id) {id : BlockId}
    (hid : other.Reachable id) : graph.Reachable id := by
  induction hid with
  | entry _ =>
      rw [← hentry]
      exact .entry hwired.entry
  | step _ hnext _ ih =>
      rw [← successors_congr (h _ ih)] at hnext
      exact .step ih hnext (hwired.targets _ _ hnext)

/-! ## The check -/

theorem WellFormed.validate {graph : Graph} (h : graph.WellFormed) :
    graph.validate = .ok graph := by
  have hnone : graph.defect? = none := by
    refine h.closed.defect?_eq_none_iff.mpr ⟨?_, ?_⟩
    · intro id hid hunset
      obtain ⟨block, hblock⟩ := block?_of_lt hid.lt
      rw [exitOf_of_block? hblock] at hunset
      simpa [hunset, Exit.isUnset] using h.decided id block hblock
    · intro id block hid hblock parent
      rw [h.mem_parents hid hblock, and_comm]
  rw [Graph.validate, hnone]

theorem Wired.refresh {graph : Graph} (h : graph.Wired) :
    graph.refresh = .ok graph.setParents :=
  h.setParents.validate

end Graph

end DefUse
