/-
# `Proofs.Graph.Check` — what the check of a graph is worth

`Graph.validate` goes through the reachable blocks and looks at each from two sides:
along its edges, whether their targets know it, and back to its parents, whether they
lead to it.  It stops at the first thing that is wrong.

What it decides is said here without the order in which it looks.  A graph passes if and
only if every reachable block has an exit and its parents are the reachable blocks with
an edge to it (`Closed.defect?_eq_none_iff`).  That is more than one side can see: a
parent that is missing is noticed at the block it should name, one too many at the block
that names it.  And a graph that does not pass has the defect that is reported
(`validate_exact`).  Nothing is assumed of the graph but that its indices lead to blocks;
it need not be one that a program has.
-/
import DefUse.Proofs.Graph.Code

namespace DefUse

theorem Exit.isUnset_iff {exit : Exit} : exit.isUnset = true ↔ exit = .unset := by
  cases exit <;> simp [isUnset]

namespace Graph

/-- All indices in the graph are those of blocks. -/
structure Indexed (graph : Graph) : Prop extends Closed graph where
  parents : ∀ block ∈ graph.blocks, ∀ parent ∈ block.parents, parent < graph.blocks.size

/-- The defect is there: its blocks are blocks of the graph, and what it says of them is so. -/
inductive Has (graph : Graph) : Defect → Prop
  | unsetEnd {id : BlockId} {block : Block} : graph.Reachable id → graph.block? id = some block →
      block.exit = .unset → Has graph (.unsetEnd block.label)
  | missingParent {id next : BlockId} {block target : Block} {kind : EdgeKind} :
      graph.Reachable id → graph.block? id = some block → (kind, next) ∈ block.exit.edges →
      graph.block? next = some target → id ∉ target.parents →
      Has graph (.missingParent target.label block.label kind)
  | strayParent {id parent : BlockId} {block listed : Block} :
      graph.Reachable id → graph.block? id = some block → parent ∈ block.parents →
      graph.block? parent = some listed →
      ¬ (graph.Reachable parent ∧ id ∈ graph.successors parent) →
      Has graph (.strayParent block.label listed.label)

variable {graph : Graph} {id parent : BlockId} {block : Block} {defect : Defect}

theorem isParent_iff : graph.isParent graph.order parent id = true ↔
    graph.Reachable parent ∧ id ∈ graph.successors parent := by
  simp [isParent, mem_order]

/-! ## One block -/

/-- Nothing is wrong with a block: it has an exit, the blocks after it know it, and those that it
lists lead to it. -/
theorem defectAt?_eq_none_iff (hblock : graph.block? id = some block) :
    graph.defectAt? graph.order id = none ↔ block.exit ≠ .unset ∧
      (∀ edge ∈ block.exit.edges,
        ∃ target, graph.block? edge.2 = some target ∧ id ∈ target.parents) ∧
      ∀ parent ∈ block.parents, graph.Reachable parent ∧ id ∈ graph.successors parent := by
  have hedges : block.exit.edges.find? (fun edge =>
      !(graph.block? edge.2).any fun next => next.parents.contains id) = none ↔
      ∀ edge ∈ block.exit.edges,
        ∃ target, graph.block? edge.2 = some target ∧ id ∈ target.parents := by
    simp [List.find?_eq_none, Option.any_eq_true]
  have hparents : block.parents.find? (fun parent => !graph.isParent graph.order parent id) =
      none ↔ ∀ parent ∈ block.parents,
        graph.Reachable parent ∧ id ∈ graph.successors parent := by
    simp [List.find?_eq_none, isParent_iff]
  rw [← hedges, ← hparents, Ne, ← Exit.isUnset_iff]
  simp only [defectAt?, hblock]
  by_cases hunset : block.exit.isUnset = true
  · simp [hunset]
  · simp only [hunset]
    cases hmissing : block.exit.edges.find? fun edge =>
        !(graph.block? edge.2).any fun next => next.parents.contains id with
    | some edge => simp
    | none => simp

/-- The defect that is found at a block is there. -/
theorem Indexed.has_of_defectAt? (h : graph.Indexed) (hid : graph.Reachable id)
    (hdefect : graph.defectAt? graph.order id = some defect) : graph.Has defect := by
  obtain ⟨block, hblock⟩ := block?_of_lt hid.lt
  simp only [defectAt?, hblock] at hdefect
  split at hdefect
  · rename_i hunset
    cases hdefect
    exact .unsetEnd hid hblock (Exit.isUnset_iff.mp hunset)
  · split at hdefect
    · rename_i kind next hmissing
      cases hdefect
      have hedge : (kind, next) ∈ block.exit.edges := List.mem_of_find?_eq_some hmissing
      have hnext : next ∈ graph.successors id := by
        rw [successors, exitOf_of_block? hblock]
        exact List.mem_map_of_mem hedge
      obtain ⟨target, htarget⟩ := block?_of_lt (h.targets id next hnext)
      have hunknown : id ∉ target.parents := by
        simpa [htarget] using List.find?_some hmissing
      rw [labelOf_of_block? htarget]
      exact .missingParent hid hblock hedge htarget hunknown
    · obtain ⟨parent, hstray, rfl⟩ := Option.map_eq_some_iff.mp hdefect
      have hparent : parent ∈ block.parents := List.mem_of_find?_eq_some hstray
      obtain ⟨listed, hlisted⟩ :=
        block?_of_lt (h.parents block (Array.mem_of_getElem? hblock) parent hparent)
      have hnone : ¬ (graph.Reachable parent ∧ id ∈ graph.successors parent) := by
        rw [← isParent_iff]
        simpa using List.find?_some hstray
      rw [labelOf_of_block? hlisted]
      exact .strayParent hid hblock hparent hlisted hnone

/-! ## The graph -/

/-- Nothing is wrong with the graph: reachable blocks have an exit, and their parents are the
reachable blocks with an edge to them. -/
theorem Closed.defect?_eq_none_iff (hclosed : graph.Closed) : graph.defect? = none ↔
    (∀ id, graph.Reachable id → graph.exitOf id ≠ .unset) ∧
      ∀ id block, graph.Reachable id → graph.block? id = some block → ∀ parent,
        parent ∈ block.parents ↔ graph.Reachable parent ∧ id ∈ graph.successors parent := by
  rw [defect?, List.findSome?_eq_none_iff]
  constructor
  · intro hnone
    have hsound : ∀ {id block}, graph.Reachable id → graph.block? id = some block → _ :=
      fun {id _} hid hblock => (defectAt?_eq_none_iff hblock).mp (hnone id (mem_order.mpr hid))
    refine ⟨?_, ?_⟩
    · intro id hid
      obtain ⟨block, hblock⟩ := block?_of_lt hid.lt
      rw [exitOf_of_block? hblock]
      exact (hsound hid hblock).1
    · intro id block hid hblock parent
      refine ⟨(hsound hid hblock).2.2 parent, ?_⟩
      -- seen from the parent: the target of its edge knows it
      rintro ⟨hparent, hedge⟩
      obtain ⟨source, hsource⟩ := block?_of_lt hparent.lt
      rw [successors, exitOf_of_block? hsource] at hedge
      obtain ⟨edge, hmem, rfl⟩ := List.mem_map.mp hedge
      obtain ⟨target, htarget, hknown⟩ := (hsound hparent hsource).2.1 edge hmem
      cases hblock.symm.trans htarget
      exact hknown
  · rintro ⟨hdecided, hparents⟩ id hid
    rw [mem_order] at hid
    obtain ⟨block, hblock⟩ := block?_of_lt hid.lt
    refine (defectAt?_eq_none_iff hblock).mpr ⟨?_, ?_, ?_⟩
    · rw [← exitOf_of_block? hblock]
      exact hdecided id hid
    · intro edge hedge
      have hnext : edge.2 ∈ graph.successors id := by
        rw [successors, exitOf_of_block? hblock]
        exact List.mem_map_of_mem hedge
      have hlt := hclosed.targets id edge.2 hnext
      obtain ⟨target, htarget⟩ := block?_of_lt hlt
      exact ⟨target, htarget, (hparents _ target (hid.step hnext hlt) htarget id).mpr ⟨hid, hnext⟩⟩
    · intro parent hparent
      exact (hparents id block hid hblock parent).mp hparent

/-- A graph passes the check if and only if its reachable blocks have an exit and list exactly the
reachable blocks with an edge to them as parents.  If it does not pass, then it has the defect
that is reported. -/
theorem validate_exact (h : graph.Indexed) :
    (graph.validate = .ok graph ↔
      (∀ id, graph.Reachable id → graph.exitOf id ≠ .unset) ∧
        ∀ id block, graph.Reachable id → graph.block? id = some block → ∀ parent,
          parent ∈ block.parents ↔ graph.Reachable parent ∧ id ∈ graph.successors parent) ∧
      ∀ error, graph.validate = .error error →
        ∃ defect, error = .inconsistent defect ∧ graph.Has defect := by
  refine ⟨?_, ?_⟩
  · rw [← h.defect?_eq_none_iff, validate]
    cases graph.defect? <;> simp
  · intro error herror
    rw [validate] at herror
    split at herror
    · rename_i defect hdefect
      cases herror
      obtain ⟨id, hid, hfound⟩ := List.exists_of_findSome?_eq_some hdefect
      exact ⟨defect, rfl, h.has_of_defectAt? (mem_order.mp hid) hfound⟩
    · cases herror

/-- The entry of the graph names a block as its parent that does lead to it, but cannot be
reached. -/
theorem validate_exact_tangled : tangled.Indexed ∧
    tangled.validate = .error (.inconsistent (.strayParent "start" "lost")) ∧
    tangled.Has (.strayParent "start" "lost") := by
  have hindexed : tangled.Indexed := ⟨closed_tangled, by decide⟩
  have herror : tangled.validate = .error (.inconsistent (.strayParent "start" "lost")) := by
    rw [validate, defect?, order_tangled]
    rfl
  obtain ⟨defect, heq, hhas⟩ := (validate_exact hindexed).2 _ herror
  cases heq
  exact ⟨hindexed, herror, hhas⟩

end Graph

end DefUse
