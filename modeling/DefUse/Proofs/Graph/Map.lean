/-
# `Proofs.Graph.Map` — graphs that differ only in the nodes they hold

The shape of a graph does not depend on the nodes in it.  If every node is replaced by
another (`Graph.mapNodes`), then the graph has the same order, the same parents and the
same defects, and each pass makes the same changes.  So drawing a statement
(`Draft.mapNodes_add`) and running passes (`Graph.foldlM_apply_mapNodes`) commute with
replacing nodes.

There is one exception.  Settling branches looks at what is tested, so for this pass the
replacement has to keep which conditions hold always.
-/
import DefUse.Proofs.Graph.Pass

namespace DefUse

open DefUse.Tree

variable (f : Node → Node)

/-! ## Blocks -/

/-- The condition with the tested node replaced. -/
def Condition.mapNodes : Condition → Condition
  | always => always
  | test node => test (f node)

namespace Exit

/-- The exit with the nodes in it replaced. -/
def mapNodes : Exit → Exit
  | ret value => ret (value.map f)
  | jump next => jump next
  | branch condition onTrue onFalse => branch (condition.mapNodes f) onTrue onFalse
  | unset => unset

@[simp] theorem edges_mapNodes (exit : Exit) : (exit.mapNodes f).edges = exit.edges := by
  cases exit <;> rfl

@[simp] theorem isUnset_mapNodes (exit : Exit) : (exit.mapNodes f).isUnset = exit.isUnset := by
  cases exit <;> rfl

theorem mapNodes_retarget (old new : BlockId) (exit : Exit) :
    (exit.retarget old new).mapNodes f = (exit.mapNodes f).retarget old new := by
  cases exit <;> rfl

theorem expression?_mapNodes (exit : Exit) :
    (exit.mapNodes f).expression? = exit.expression?.map f := by
  cases exit with
  | ret value => cases value <;> rfl
  | jump next => rfl
  | branch condition onTrue onFalse => cases condition <;> rfl
  | unset => rfl

theorem mapNodes_settle
    (hf : ∀ condition : Condition, (condition.mapNodes f).isAlwaysTrue = condition.isAlwaysTrue)
    (exit : Exit) : exit.settle.mapNodes f = (exit.mapNodes f).settle := by
  cases exit with
  | ret value => rfl
  | jump next => rfl
  | branch condition onTrue onFalse =>
      rw [mapNodes, settle, settle, hf]
      split <;> rfl
  | unset => rfl

end Exit

/-- The block with the nodes that it holds replaced. -/
def Block.mapNodes (block : Block) : Block :=
  { block with statements := block.statements.map f, exit := block.exit.mapNodes f }

namespace Graph

/-- The graph with all nodes replaced. -/
def mapNodes (graph : Graph) : Graph :=
  { graph with blocks := graph.blocks.map (Block.mapNodes f) }

variable (graph : Graph)

@[simp] theorem size_mapNodes : (graph.mapNodes f).blocks.size = graph.blocks.size :=
  Array.size_map

@[simp] theorem block?_mapNodes (id : BlockId) :
    (graph.mapNodes f).block? id = (graph.block? id).map (Block.mapNodes f) :=
  Array.getElem?_map

theorem exitOf_mapNodes (id : BlockId) :
    (graph.mapNodes f).exitOf id = (graph.exitOf id).mapNodes f := by
  rw [exitOf, exitOf, block?_mapNodes]
  cases graph.block? id <;> rfl

@[simp] theorem labelOf_mapNodes (id : BlockId) :
    (graph.mapNodes f).labelOf id = graph.labelOf id := by
  rw [labelOf, labelOf, block?_mapNodes]
  cases graph.block? id <;> rfl

@[simp] theorem successors_mapNodes (id : BlockId) :
    (graph.mapNodes f).successors id = graph.successors id := by
  rw [successors, successors, exitOf_mapNodes, Exit.successors, Exit.edges_mapNodes]
  rfl

/-- Graphs with the same blocks are equal. -/
theorem ext_block? {graph other : Graph} (hentry : graph.entry = other.entry)
    (hcounter : graph.counter = other.counter) (h : ∀ id, graph.block? id = other.block? id) :
    graph = other := by
  obtain ⟨blocks, entry, counter⟩ := graph
  obtain ⟨blocks', entry', counter'⟩ := other
  simp only [mk.injEq]
  exact ⟨Array.ext_getElem? h, hentry, hcounter⟩

/-! ## Order and parents -/

theorem enumerate_mapNodes (queue order : List BlockId) :
    (graph.mapNodes f).enumerate queue order = graph.enumerate queue order := by
  fun_induction enumerate graph queue order with
  | case1 order => rw [enumerate]
  | case2 order id rest hlisted ih => rw [enumerate, if_pos hlisted, ih]
  | case3 order id rest hlisted hid listed next ih =>
      rw [enumerate, if_neg hlisted, if_pos (by simpa using hid), successors_mapNodes]
      exact ih
  | case4 order id rest hlisted hid ih =>
      rw [enumerate, if_neg hlisted, if_neg (by simpa using hid), ih]

@[simp] theorem order_mapNodes : (graph.mapNodes f).order = graph.order :=
  enumerate_mapNodes f graph _ _

theorem reachable_mapNodes :
    (graph.mapNodes f).reachable = graph.reachable.map (Block.mapNodes f) := by
  rw [reachable, reachable, order_mapNodes, List.map_filterMap]
  exact congrArg (fun find => graph.order.filterMap find) (funext (block?_mapNodes f graph))

theorem mapNodes_setParents : graph.setParents.mapNodes f = (graph.mapNodes f).setParents := by
  refine ext_block? rfl rfl ?_
  intro id
  simp only [block?_mapNodes, block?_setParents, Option.map_map, parentsAmong, size_mapNodes,
    successors_mapNodes, order_mapNodes]
  rfl

theorem defectAt?_mapNodes (order : List BlockId) (id : BlockId) :
    (graph.mapNodes f).defectAt? order id = graph.defectAt? order id := by
  rw [defectAt?, defectAt?, block?_mapNodes]
  cases graph.block? id with
  | none => rfl
  | some block =>
      simp only [Option.map_some, Block.mapNodes, Exit.isUnset_mapNodes, Exit.edges_mapNodes,
        block?_mapNodes, Option.any_map, labelOf_mapNodes, isParent,
        successors_mapNodes]

theorem validate_mapNodes : (graph.mapNodes f).validate = graph.validate.map (mapNodes f) := by
  have hdefect : (graph.mapNodes f).defect? = graph.defect? := by
    rw [defect?, defect?, order_mapNodes]
    exact congrArg (graph.order.findSome? ·) (funext (defectAt?_mapNodes f graph graph.order))
  rw [validate, validate, hdefect]
  cases graph.defect? <;> rfl

theorem refresh_mapNodes : (graph.mapNodes f).refresh = graph.refresh.map (mapNodes f) := by
  rw [refresh, ← mapNodes_setParents, validate_mapNodes]
  rfl

/-! ## Changes -/

theorem mapNodes_add (word : String) (exit : Exit) :
    (graph.add word exit).mapNodes f = (graph.mapNodes f).add word (exit.mapNodes f) := by
  simp [mapNodes, add, addLabeled, Block.mapNodes]

theorem mapNodes_modify (id : BlockId) {change change' : Block → Block}
    (h : ∀ block, (change block).mapNodes f = change' (block.mapNodes f)) :
    (graph.modify id change).mapNodes f = (graph.mapNodes f).modify id change' := by
  refine ext_block? rfl rfl ?_
  intro other
  simp only [block?_mapNodes, block?_modify]
  split
  · rw [Option.map_map, Option.map_map]
    exact congrArg (Option.map · _) (funext h)
  · rfl

theorem mapNodes_setExit (id : BlockId) (exit : Exit) :
    (graph.setExit id exit).mapNodes f = (graph.mapNodes f).setExit id (exit.mapNodes f) :=
  mapNodes_modify f graph id fun _ => rfl

theorem mapNodes_append (id : BlockId) (statements : List Node) :
    (graph.append id statements).mapNodes f = (graph.mapNodes f).append id (statements.map f) := by
  refine mapNodes_modify f graph id ?_
  intro block
  simp only [Block.mapNodes, List.map_append]

/-! ## Passes -/

theorem emptyJump?_mapNodes (id : BlockId) :
    (graph.mapNodes f).emptyJump? id = graph.emptyJump? id := by
  rw [emptyJump?, emptyJump?, block?_mapNodes]
  cases graph.block? id with
  | none => rfl
  | some block =>
      obtain ⟨index, label, statements, exit, parents⟩ := block
      cases statements with
      | nil => cases exit <;> rfl
      | cons first rest => rfl

theorem mapNodes_bypass (id next : BlockId) :
    (graph.bypass id next).mapNodes f = (graph.mapNodes f).bypass id next := by
  have hlisted : (graph.mapNodes f).listed id = graph.listed id := by
    rw [listed, listed, block?_mapNodes]
    cases graph.block? id <;> rfl
  have hturned : (graph.turned id next).mapNodes f = (graph.mapNodes f).turned id next := by
    refine ext_block? rfl rfl ?_
    intro other
    simp only [block?_mapNodes, block?_turned, Option.map_map, hlisted]
    refine congrArg (Option.map · _) (funext fun block => ?_)
    simp only [Function.comp_apply]
    split
    · rw [Block.mapNodes, Exit.mapNodes_retarget]
      rfl
    · rfl
  exact (mapNodes_setParents f (graph.turned id next)).trans (congrArg setParents hturned)

theorem mapNodes_bypassAll (fuel : Nat) (graph : Graph) :
    (bypassAll fuel graph).mapNodes f = bypassAll fuel (graph.mapNodes f) := by
  induction fuel generalizing graph with
  | zero => rfl
  | succ fuel ih =>
      rw [bypassAll, bypassAll, order_mapNodes, funext (emptyJump?_mapNodes f graph)]
      cases graph.order.findSome? graph.emptyJump? with
      | none => rfl
      | some found => exact (ih _).trans (congrArg _ (mapNodes_bypass f graph found.1 found.2))

theorem mapNodes_settleAll
    (hf : ∀ condition : Condition, (condition.mapNodes f).isAlwaysTrue = condition.isAlwaysTrue) :
    graph.settleAll.mapNodes f = (graph.mapNodes f).settleAll := by
  refine ext_block? rfl rfl ?_
  intro id
  simp only [block?_mapNodes, block?_settleAll, Option.map_map, order_mapNodes]
  refine congrArg (Option.map · _) (funext fun block => ?_)
  simp only [Function.comp_apply]
  split
  · rw [Block.mapNodes, Exit.mapNodes_settle f hf]
    rfl
  · rfl

theorem mergeable?_mapNodes (id : BlockId) :
    (graph.mapNodes f).mergeable? id = graph.mergeable? id := by
  rw [mergeable?, mergeable?, exitOf_mapNodes]
  cases graph.exitOf id with
  | ret value => rfl
  | jump next =>
      simp only [Exit.mapNodes, block?_mapNodes, Option.any_map]
      rfl
  | branch condition onTrue onFalse => rfl
  | unset => rfl

theorem mapNodes_merge (head tail : BlockId) :
    (graph.merge head tail).mapNodes f = (graph.mapNodes f).merge head tail := by
  cases habsorbed : graph.block? tail with
  | none =>
      rw [merge, merge, block?_mapNodes, habsorbed]
      rfl
  | some absorbed =>
      have habsorbed' : (graph.mapNodes f).block? tail = some (absorbed.mapNodes f) := by
        rw [block?_mapNodes, habsorbed]
        rfl
      have hemptied : (graph.emptied tail).mapNodes f = (graph.mapNodes f).emptied tail :=
        mapNodes_modify f graph tail fun _ => rfl
      rw [merge_eq habsorbed, merge_eq habsorbed', mapNodes_setParents, joined, copied,
        mapNodes_setExit, mapNodes_append, hemptied]
      rfl

theorem mapNodes_mergeAll (fuel : Nat) (graph : Graph) :
    (mergeAll fuel graph).mapNodes f = mergeAll fuel (graph.mapNodes f) := by
  induction fuel generalizing graph with
  | zero => rfl
  | succ fuel ih =>
      rw [mergeAll, mergeAll, order_mapNodes, funext (mergeable?_mapNodes f graph)]
      cases graph.order.findSome? graph.mergeable? with
      | none => rfl
      | some found => exact (ih _).trans (congrArg _ (mapNodes_merge f graph found.1 found.2))

theorem map_chain (label : String) (exit : Exit) : ∀ (first count : Nat) (statements : List Node),
    (chain label exit first count statements).map (Block.mapNodes f) =
      chain label (exit.mapNodes f) first count (statements.map f)
  | _, _, [] => rfl
  | _, _, [_] => rfl
  | first, count, _ :: second :: rest =>
      congrArg (_ :: ·) (map_chain label exit (first + 1) (count + 1) (second :: rest))

theorem mapNodes_extended (blocks : List Block) :
    (graph.extended blocks).mapNodes f =
      (graph.mapNodes f).extended (blocks.map (Block.mapNodes f)) := by
  simp [mapNodes, extended]

theorem mapNodes_splitBlock (id : BlockId) :
    (graph.splitBlock id).mapNodes f = (graph.mapNodes f).splitBlock id := by
  cases hblock : graph.block? id with
  | none =>
      rw [splitBlock, splitBlock, block?_mapNodes, hblock]
      rfl
  | some block =>
      have hblock' : (graph.mapNodes f).block? id = some (block.mapNodes f) := by
        rw [block?_mapNodes, hblock]
        rfl
      obtain ⟨index, label, statements, exit, parents⟩ := block
      rcases statements with _ | ⟨first, _ | ⟨second, rest⟩⟩
      · rw [splitBlock, splitBlock, hblock, hblock']
        rfl
      · rw [splitBlock, splitBlock, hblock, hblock']
        rfl
      · rw [splitBlock_eq hblock rfl, splitBlock_eq hblock' rfl, parted, mapNodes_extended,
          map_chain, parted, size_mapNodes]
        exact congrArg _ (mapNodes_modify f graph id fun _ => rfl)

theorem mapNodes_splitAll : graph.splitAll.mapNodes f = (graph.mapNodes f).splitAll := by
  have hfoldl : ∀ (ids : List BlockId) (graph : Graph),
      (ids.foldl splitBlock graph).mapNodes f = ids.foldl splitBlock (graph.mapNodes f) := by
    intro ids
    induction ids with
    | nil => exact fun _ => rfl
    | cons id rest ih =>
        intro graph
        rw [List.foldl_cons, List.foldl_cons, ih, mapNodes_splitBlock]
  rw [splitAll, splitAll, order_mapNodes, hfoldl]

variable {f}

/-- A pass makes the same changes, whatever the nodes are. -/
theorem apply_mapNodes
    (hf : ∀ condition : Condition, (condition.mapNodes f).isAlwaysTrue = condition.isAlwaysTrue)
    (pass : Pass) : (graph.mapNodes f).apply pass = (graph.apply pass).map (mapNodes f) := by
  cases pass with
  | emptyJumps => rw [apply, apply, size_mapNodes, ← mapNodes_bypassAll, validate_mapNodes]
  | trueBranches => rw [apply, apply, ← mapNodes_settleAll f graph hf, refresh_mapNodes]
  | mergeChains => rw [apply, apply, size_mapNodes, ← mapNodes_mergeAll, validate_mapNodes]
  | split => rw [apply, apply, ← mapNodes_splitAll, refresh_mapNodes]

theorem foldlM_apply_mapNodes
    (hf : ∀ condition : Condition, (condition.mapNodes f).isAlwaysTrue = condition.isAlwaysTrue)
    (passes : List Pass) (graph : Graph) :
    passes.foldlM apply (graph.mapNodes f) = (passes.foldlM apply graph).map (mapNodes f) := by
  induction passes generalizing graph with
  | nil => rfl
  | cons pass rest ih =>
      rw [List.foldlM_cons, List.foldlM_cons, apply_mapNodes graph hf]
      cases graph.apply pass with
      | error e => rfl
      | ok next => exact ih next

end Graph

/-! ## Drawing a statement -/

/-- The statement with the nodes in it replaced. -/
def Statement.mapNodes : Statement → Statement
  | skip => skip
  | simple node => simple (f node)
  | seq first second => seq first.mapNodes second.mapNodes
  | ifElse condition thenArm elseArm => ifElse (f condition) thenArm.mapNodes elseArm.mapNodes
  | whileLoop condition body => whileLoop (f condition) body.mapNodes
  | doLoop condition body => doLoop (f condition) body.mapNodes
  | forLoop initializer condition increment body =>
    forLoop (initializer.map f) (condition.map f) (increment.map f) body.mapNodes
  | jump target => jump target
  | ret value => ret (value.map f)

namespace Draft

/-- The draft with the nodes in its graph replaced. -/
def mapNodes (draft : Draft) : Draft :=
  ⟨draft.graph.mapNodes f, draft.current⟩

variable (draft : Draft)

@[simp] theorem fresh_mapNodes : (draft.mapNodes f).fresh = draft.fresh :=
  Graph.size_mapNodes f draft.graph

theorem pending_mapNodes : (draft.mapNodes f).pending = draft.pending.mapNodes f :=
  Graph.exitOf_mapNodes f draft.graph draft.current

theorem mapNodes_cut {exit exit' : BlockId → Exit} (h : ∀ id, (exit id).mapNodes f = exit' id) :
    (draft.cut exit).mapNodes f = (draft.mapNodes f).cut exit' := by
  rw [cut, mapNodes, Graph.mapNodes_setExit, Graph.mapNodes_add, h, ← pending_mapNodes]
  rw [cut, fresh_mapNodes]
  rfl

theorem mapNodes_openIf (condition : Node) :
    (draft.openIf condition).mapNodes f = (draft.mapNodes f).openIf (f condition) := by
  simp only [openIf, Graph.mapNodes_setExit, Graph.mapNodes_add, fresh_mapNodes, pending_mapNodes]
  rfl

theorem mapNodes_openWhile (condition : Node) :
    (draft.openWhile condition).mapNodes f = (draft.mapNodes f).openWhile (f condition) := by
  simp only [openWhile, Graph.mapNodes_setExit, Graph.mapNodes_add, fresh_mapNodes,
    pending_mapNodes]
  rfl

theorem mapNodes_openDo (condition : Node) :
    (draft.openDo condition).mapNodes f = (draft.mapNodes f).openDo (f condition) := by
  simp only [openDo, Graph.mapNodes_setExit, Graph.mapNodes_add, fresh_mapNodes, pending_mapNodes]
  rfl

theorem mapNodes_openFor (initializer condition increment : Option Node) :
    (draft.openFor initializer condition increment).mapNodes f =
      (draft.mapNodes f).openFor (initializer.map f) (condition.map f) (increment.map f) := by
  have hcondition : (forCondition condition).mapNodes f = forCondition (condition.map f) := by
    cases condition <;> rfl
  have htoList : ∀ clause : Option Node, clause.toList.map f = (clause.map f).toList := by
    intro clause
    cases clause <;> rfl
  simp only [openFor, Graph.mapNodes_setExit, Graph.mapNodes_append, Graph.mapNodes_add,
    fresh_mapNodes, pending_mapNodes, htoList, ← hcondition]
  rfl

/-- A statement is drawn in the same way, whatever the nodes are. -/
theorem mapNodes_add (statement : Statement) (loop : Option LoopTargets) (draft : Draft) :
    (add statement loop draft).mapNodes f = add (statement.mapNodes f) loop (draft.mapNodes f) := by
  have hgraph : ∀ {part : Statement}, (∀ loop draft, (add part loop draft).mapNodes f =
        add (part.mapNodes f) loop (draft.mapNodes f)) → ∀ loop graph current,
      (add part loop ⟨graph, current⟩).graph.mapNodes f =
        (add (part.mapNodes f) loop ⟨graph.mapNodes f, current⟩).graph :=
    fun ih loop graph current => congrArg Draft.graph (ih loop ⟨graph, current⟩)
  induction statement generalizing loop draft with
  | skip => rfl
  | simple node =>
      rw [add, mapNodes, Graph.mapNodes_append]
      rfl
  | seq first second ihFirst ihSecond =>
      rw [add, ihSecond, ihFirst]
      rfl
  | ifElse condition thenArm elseArm ihThen ihElse =>
      simp only [add, mapNodes, hgraph ihElse, hgraph ihThen, mapNodes_openIf, Statement.mapNodes]
      rw [← mapNodes, fresh_mapNodes]
  | whileLoop condition body ih =>
      simp only [add, mapNodes, hgraph ih, mapNodes_openWhile, Statement.mapNodes]
      rw [← mapNodes, fresh_mapNodes]
  | doLoop condition body ih =>
      simp only [add, mapNodes, hgraph ih, mapNodes_openDo, Statement.mapNodes]
      rw [← mapNodes, fresh_mapNodes]
  | forLoop initializer condition increment body ih =>
      simp only [add, mapNodes, hgraph ih, mapNodes_openFor, Statement.mapNodes]
      rw [← mapNodes, fresh_mapNodes]
  | jump jump =>
      cases loop with
      | none => rfl
      | some targets => exact mapNodes_cut f draft fun _ => rfl
  | ret value => exact mapNodes_cut f draft fun _ => rfl

theorem mapNodes_start : start.mapNodes f = start := by
  have hempty : Graph.mapNodes f ⟨#[], 0, 0⟩ = ⟨#[], 0, 0⟩ := by
    rw [Graph.mapNodes, Array.map_empty]
  rw [start, mapNodes, Graph.mapNodes_add, hempty]
  rfl

end Draft

end DefUse
