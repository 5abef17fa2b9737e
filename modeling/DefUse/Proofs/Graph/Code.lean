/-
# `Proofs.Graph.Code` — what each change of a graph does to each block

What a block does is its *code*: its statements and its exit.  Label, index and
parents are about the block, not about what it does, and most arguments never
mention them.  For every operation that changes a graph there is one equation
here that says what the code of each block is afterwards.
-/
import DefUse.Graph.Build
import DefUse.Graph.Pass
import DefUse.Proofs.Graph.Reach

namespace DefUse

open DefUse.Tree

/-- Statements, and what comes after them: a block, or what is left of one. -/
structure Code where
  statements : List Node
  exit : Exit

/-- What a block does. -/
def Block.code (block : Block) : Code :=
  ⟨block.statements, block.exit⟩

@[simp] theorem Block.code_statements (block : Block) :
    block.code.statements = block.statements := rfl

@[simp] theorem Block.code_exit (block : Block) : block.code.exit = block.exit := rfl

namespace Graph

/-- The code of the block with an index. -/
def code? (graph : Graph) (id : BlockId) : Option Code :=
  (graph.block? id).map Block.code

theorem code?_of_block? {graph : Graph} {id : BlockId} {block : Block}
    (h : graph.block? id = some block) : graph.code? id = some block.code := by
  rw [code?, h]
  rfl

theorem block?_of_code? {graph : Graph} {id : BlockId} {code : Code}
    (h : graph.code? id = some code) : ∃ block, graph.block? id = some block ∧ block.code = code :=
  Option.map_eq_some_iff.mp h

theorem block?_of_lt {graph : Graph} {id : BlockId} (h : id < graph.blocks.size) :
    ∃ block, graph.block? id = some block :=
  ⟨_, Array.getElem?_eq_getElem h⟩

theorem lt_of_block? {graph : Graph} {id : BlockId} {block : Block}
    (h : graph.block? id = some block) : id < graph.blocks.size :=
  (Array.getElem?_eq_some_iff.mp h).1

theorem code?_of_lt {graph : Graph} {id : BlockId} (h : id < graph.blocks.size) :
    ∃ code, graph.code? id = some code := by
  obtain ⟨block, hblock⟩ := block?_of_lt h
  exact ⟨block.code, code?_of_block? hblock⟩

theorem lt_of_code? {graph : Graph} {id : BlockId} {code : Code}
    (h : graph.code? id = some code) : id < graph.blocks.size := by
  obtain ⟨block, hblock, -⟩ := block?_of_code? h
  exact lt_of_block? hblock

theorem code?_eq_none {graph : Graph} {id : BlockId} (h : graph.blocks.size ≤ id) :
    graph.code? id = none := by
  rw [code?, block?, Array.getElem?_eq_none h]
  rfl

theorem exitOf_of_block? {graph : Graph} {id : BlockId} {block : Block}
    (h : graph.block? id = some block) : graph.exitOf id = block.exit := by
  rw [exitOf, h]

theorem labelOf_of_block? {graph : Graph} {id : BlockId} {block : Block}
    (h : graph.block? id = some block) : graph.labelOf id = block.label := by
  rw [labelOf, h]

theorem exitOf_of_code? {graph : Graph} {id : BlockId} {code : Code}
    (h : graph.code? id = some code) : graph.exitOf id = code.exit := by
  obtain ⟨block, hblock, rfl⟩ := block?_of_code? h
  exact exitOf_of_block? hblock

theorem successors_of_code? {graph : Graph} {id : BlockId} {code : Code}
    (h : graph.code? id = some code) : graph.successors id = code.exit.successors := by
  rw [successors, exitOf_of_code? h]

/-- Only a block that exists has successors. -/
theorem lt_of_mem_successors {graph : Graph} {id next : BlockId}
    (h : next ∈ graph.successors id) : id < graph.blocks.size := by
  by_cases hid : id < graph.blocks.size
  · exact hid
  · rw [successors, exitOf, block?, Array.getElem?_eq_none (Nat.le_of_not_lt hid)] at h
    exact absurd h List.not_mem_nil

theorem length_successors_le (graph : Graph) (id : BlockId) :
    (graph.successors id).length ≤ 2 := by
  rw [successors]
  cases graph.exitOf id <;> simp [Exit.successors, Exit.edges]

/-- A graph is closed if the edges of its blocks lead to blocks. -/
theorem closed_of_blocks {graph : Graph} (hentry : graph.entry < graph.blocks.size)
    (htargets : ∀ block ∈ graph.blocks, ∀ next ∈ block.exit.successors,
      next < graph.blocks.size) : graph.Closed := by
  refine ⟨hentry, ?_⟩
  intro id next hnext
  obtain ⟨block, hblock⟩ := block?_of_lt (lt_of_mem_successors hnext)
  rw [successors, exitOf_of_block? hblock] at hnext
  exact htargets block (Array.mem_of_getElem? hblock) next hnext

/-- Two graphs that do the same at a block have the same edges there. -/
theorem successors_congr {graph other : Graph} {id : BlockId}
    (h : graph.code? id = other.code? id) : graph.successors id = other.successors id := by
  by_cases hid : id < graph.blocks.size
  · obtain ⟨code, hcode⟩ := code?_of_lt hid
    rw [successors_of_code? hcode, successors_of_code? (h ▸ hcode)]
  · have hnone := code?_eq_none (Nat.le_of_not_lt hid)
    rw [code?, Option.map_eq_none_iff] at hnone
    have hother : other.block? id = none := by
      rw [← Option.map_eq_none_iff (f := Block.code), ← code?, ← h, code?, hnone]
      rfl
    rw [successors, exitOf, hnone, successors, exitOf, hother]

/-! ## Changes of one block -/

@[simp] theorem size_modify (graph : Graph) (id : BlockId) (f : Block → Block) :
    (graph.modify id f).blocks.size = graph.blocks.size := by
  simp [modify]

@[simp] theorem size_setExit (graph : Graph) (id : BlockId) (exit : Exit) :
    (graph.setExit id exit).blocks.size = graph.blocks.size :=
  size_modify ..

@[simp] theorem size_append (graph : Graph) (id : BlockId) (statements : List Node) :
    (graph.append id statements).blocks.size = graph.blocks.size :=
  size_modify ..

theorem block?_modify (graph : Graph) (id other : BlockId) (f : Block → Block) :
    (graph.modify id f).block? other =
      if id = other then (graph.block? other).map f else graph.block? other := by
  rw [block?, modify, Array.getElem?_modify]
  rfl

theorem code?_setExit (graph : Graph) (id other : BlockId) (exit : Exit) :
    (graph.setExit id exit).code? other =
      if id = other then (graph.code? other).map fun code => { code with exit := exit }
      else graph.code? other := by
  rw [code?, setExit, block?_modify]
  split
  · rw [code?, Option.map_map, Option.map_map]
    rfl
  · rfl

theorem code?_append (graph : Graph) (id other : BlockId) (statements : List Node) :
    (graph.append id statements).code? other =
      if id = other then
        (graph.code? other).map fun code =>
          { code with statements := code.statements ++ statements }
      else graph.code? other := by
  rw [code?, append, block?_modify]
  split
  · rw [code?, Option.map_map, Option.map_map]
    rfl
  · rfl

/-! ## New blocks -/

@[simp] theorem size_add (graph : Graph) (word : String) (exit : Exit) :
    (graph.add word exit).blocks.size = graph.blocks.size + 1 := by
  simp [add, addLabeled]

theorem block?_add (graph : Graph) (word : String) (exit : Exit) (id : BlockId) :
    (graph.add word exit).block? id =
      if id = graph.blocks.size then
        some ⟨graph.blocks.size, word ++ toString (graph.counter + 1), [], exit, []⟩
      else graph.block? id := by
  rw [block?, add, addLabeled, Array.getElem?_push]
  rfl

theorem code?_add (graph : Graph) (word : String) (exit : Exit) (id : BlockId) :
    (graph.add word exit).code? id =
      if id = graph.blocks.size then some ⟨[], exit⟩ else graph.code? id := by
  rw [code?, block?_add]
  split <;> rfl

/-! ## Parents -/

@[simp] theorem entry_setParents (graph : Graph) : graph.setParents.entry = graph.entry := rfl

@[simp] theorem size_setParents (graph : Graph) :
    graph.setParents.blocks.size = graph.blocks.size := by
  simp [setParents]

theorem block?_setParents (graph : Graph) (id : BlockId) :
    graph.setParents.block? id = (graph.block? id).map fun block =>
      { block with parents := graph.parentsAmong graph.order id } := by
  rw [block?, setParents, Array.getElem?_mapIdx]
  rfl

@[simp] theorem code?_setParents (graph : Graph) (id : BlockId) :
    graph.setParents.code? id = graph.code? id := by
  rw [code?, block?_setParents, Option.map_map]
  rfl

@[simp] theorem successors_setParents (graph : Graph) (id : BlockId) :
    graph.setParents.successors id = graph.successors id :=
  successors_congr (code?_setParents graph id)

theorem reachable_setParents (graph : Graph) (id : BlockId) :
    graph.setParents.Reachable id ↔ graph.Reachable id := by
  constructor
  · refine Reachable.mono (entry_setParents graph) (Nat.le_of_eq (size_setParents graph)) ?_
    intro id _ next hnext
    rwa [successors_setParents] at hnext
  · refine Reachable.mono (entry_setParents graph).symm (Nat.le_of_eq (size_setParents graph).symm)
      ?_
    intro id _ next hnext
    rwa [successors_setParents]

/-! ## An example -/

/-- A graph that no statement has.  Two ways lead to each of its last blocks, and its entry lists
a parent that cannot be reached. -/
def tangled : Graph where
  blocks := #[
    ⟨0, "lost", [], .jump 2, []⟩,
    ⟨1, "left", [], .jump 4, [2, 3]⟩,
    ⟨2, "start", [], .branch .always 1 3, [0]⟩,
    ⟨3, "right", [], .branch .always 1 4, [2]⟩,
    ⟨4, "end", [], .ret none, [1, 3]⟩]
  entry := 2
  counter := 5

theorem closed_tangled : tangled.Closed :=
  closed_of_blocks (by decide) (by decide)

theorem order_tangled : tangled.order = [2, 1, 3, 4] := by
  simp [order, enumerate, tangled, successors, exitOf, block?, Exit.successors, Exit.edges]

end Graph

end DefUse
