/-
# `Proofs.Graph.Rejoin` — merging undoes splitting

If a graph is split before its chains are merged, merging has more to do: the pieces are
joined again, between and after the joins that there were to make anyway, over a larger
array of blocks.  The result is the same.  Neither splitting nor merging changes what a
strand does, and merging leaves one block of every strand, so that the two graphs agree
on what can be reached (`WellFormed.twin_rejoined`).

Two well formed graphs that agree so and label their blocks alike cannot be told apart
from outside (`Twin`): they list the same blocks in the same order, with the same
parents, and are written the same.  How many blocks lie out of reach does not matter.
-/
import Mathlib
import DefUse.Graph.Listing
import DefUse.Proofs.Graph.Strand
import DefUse.Proofs.Statement

namespace DefUse

open DefUse.Tree

/-- The text of an exit depends on the labels of the blocks it leads to. -/
theorem Program.exitText_congr (program : Program) {graph other : Graph} {exit : Exit}
    (h : ∀ next ∈ exit.successors, graph.labelOf next = other.labelOf next) :
    program.exitText graph exit = program.exitText other exit := by
  cases exit with
  | ret value => cases value <;> rfl
  | jump next => rw [exitText, exitText, h next List.mem_cons_self]
  | branch condition onTrue onFalse =>
      rw [exitText, exitText, h onTrue List.mem_cons_self,
        h onFalse (List.mem_cons_of_mem _ List.mem_cons_self)]
  | unset => rfl

namespace Graph

variable {graph other : Graph} {id : BlockId}

/-! ## Graphs that agree are listed alike -/

theorem Agree.enumerate_eq (h : graph.Agree other) (queue order : List BlockId)
    (hqueue : ∀ id ∈ queue, graph.Reachable id) :
    graph.enumerate queue order = other.enumerate queue order := by
  fun_induction enumerate graph queue order with
  | case1 order => rw [enumerate]
  | case2 order id rest hlisted ih =>
      rw [ih fun next hnext => hqueue next (List.mem_cons_of_mem _ hnext)]
      conv_rhs => rw [enumerate, if_pos hlisted]
  | case3 order id rest hlisted hid listed next ih =>
      have hreach := hqueue id List.mem_cons_self
      rw [ih ?_]
      · conv_rhs => rw [enumerate, if_neg hlisted, if_pos (h.reachable_iff.mp hreach).lt]
        rw [← successors_congr (h.code id hreach)]
      · intro target htarget
        rcases List.mem_append.mp htarget with htarget | htarget
        · exact hqueue target (List.mem_cons_of_mem _ htarget)
        · have hedge := (List.mem_filter.mp htarget).1
          exact .step hreach hedge (h.wired.targets _ _ hedge)
  | case4 order id rest hlisted hid ih => exact absurd (hqueue id List.mem_cons_self).lt hid

theorem Agree.order_eq (h : graph.Agree other) : graph.order = other.order := by
  rw [order, order, ← h.entry]
  refine h.enumerate_eq _ _ ?_
  intro id hid
  rw [List.mem_singleton.mp hid]
  exact .entry h.wired.entry

/-- Parents are listed by index, so that it does not matter how many blocks there are. -/
theorem Agree.parentsAmong_eq (h : graph.Agree other) (id : BlockId) :
    graph.parentsAmong graph.order id = other.parentsAmong other.order id := by
  refine List.Pairwise.eq_of_mem_iff (List.pairwise_lt_range.filter _)
    (List.pairwise_lt_range.filter _) ?_
  intro parent
  rw [mem_parentsAmong, mem_parentsAmong, h.order_eq]
  refine and_congr_left fun hparent => ?_
  rw [successors_congr (h.code parent (h.reachable_of (mem_order.mp hparent)))]

/-- The graphs agree and label what can be reached alike. -/
structure Twin (graph other : Graph) : Prop extends Agree graph other where
  parents : graph.WellFormed
  parents' : other.WellFormed
  label : ∀ id, graph.Reachable id → graph.labelOf id = other.labelOf id

namespace Twin

theorem block?_eq (h : graph.Twin other) (hid : graph.Reachable id) :
    graph.block? id = other.block? id := by
  have hid' := h.reachable_iff.mp hid
  obtain ⟨block, hblock⟩ := block?_of_lt hid.lt
  obtain ⟨block', hblock'⟩ := block?_of_lt hid'.lt
  have hindex := (h.wired.ids id block hblock).trans (h.wired'.ids id block' hblock').symm
  have hlabel := h.label id hid
  rw [labelOf_of_block? hblock, labelOf_of_block? hblock'] at hlabel
  have hcode := h.code id hid
  rw [code?_of_block? hblock, code?_of_block? hblock', Option.some.injEq] at hcode
  have hparents := h.parentsAmong_eq id
  rw [← h.parents.parents id block hid hblock, ← h.parents'.parents id block' hid' hblock']
    at hparents
  rw [hblock, hblock']
  obtain ⟨index, label, statements, exit, parents⟩ := block
  obtain ⟨index', label', statements', exit', parents'⟩ := block'
  cases hcode
  cases hindex
  cases hlabel
  cases hparents
  rfl

theorem reachable_eq (h : graph.Twin other) : graph.reachable = other.reachable := by
  rw [reachable, reachable, ← h.order_eq]
  exact List.filterMap_congr fun id hid => h.block?_eq (mem_order.mp hid)

theorem graphText_eq (h : graph.Twin other) (program : Program) :
    program.graphText graph = program.graphText other := by
  rw [Program.graphText, Program.graphText, ← h.reachable_eq]
  refine congrArg String.join (List.map_congr_left fun block hblock => ?_)
  obtain ⟨id, hid, hfound⟩ := List.mem_filterMap.mp hblock
  have hexit : program.exitText graph block.exit = program.exitText other block.exit := by
    refine program.exitText_congr fun next hnext => h.label next ?_
    have hedge : next ∈ graph.successors id := by
      rwa [successors, exitOf_of_block? hfound]
    exact .step (mem_order.mp hid) hedge (h.wired.targets _ _ hedge)
  rw [Program.blockText, Program.blockText, hexit]

end Twin

/-! ## Entry and labels -/

theorem entry_mergeAll (fuel : Nat) (graph : Graph) : (mergeAll fuel graph).entry = graph.entry :=
  mergeAll_keeps (P := fun other => other.entry = graph.entry) (fun _ _ _ _ h _ _ _ _ _ _ => h)
    fuel graph rfl

theorem labelOf_mergeAll (fuel : Nat) (graph : Graph) (id : BlockId) :
    (mergeAll fuel graph).labelOf id = graph.labelOf id := by
  refine mergeAll_keeps (P := fun other => other.labelOf id = graph.labelOf id) ?_ fuel graph rfl
  intro other head tail absorbed h _ _ _ _ _ _
  rw [labelOf_setParents, labelOf_joined, h]

theorem entry_splitAll (graph : Graph) : graph.splitAll.entry = graph.entry :=
  splitAll_keeps (P := fun other => other.entry = graph.entry) (fun _ _ _ _ _ _ h _ _ => h) rfl

/-- Splitting leaves the blocks that were there their labels. -/
theorem labelOf_splitAll (hid : id < graph.blocks.size) :
    graph.splitAll.labelOf id = graph.labelOf id := by
  have hall := splitAll_keeps
    (P := fun other => id < other.blocks.size ∧ other.labelOf id = graph.labelOf id) ?_ ⟨hid, rfl⟩
  · exact hall.2
  · rintro other cut block first second rest ⟨hlt, hlabel⟩ hblock -
    rw [size_parted, labelOf_parted_of_lt hblock hlt]
    exact ⟨Nat.lt_add_right _ hlt, hlabel⟩

/-! ## Merging what was split -/

/-- What merging makes of the pieces is what it makes of the blocks. -/
theorem WellFormed.twin_rejoined (h : graph.WellFormed) :
    ((graph.after .split).after .mergeChains).Twin (graph.after .mergeChains) := by
  have hsplit := (h.apply .split).2
  have hrejoined := (hsplit.apply .mergeChains).2
  have hmerged := (h.apply .mergeChains).2
  -- both ends are made of the strands of one graph
  have hstrands : ∀ id code, (graph.after .split).Bundled id code ↔ graph.Bundled id code :=
    fun id code => h.splitAll.agree_setParents.bundled_iff.trans h.toWired.bundled_splitAll
  have hcode : ∀ id, ((graph.after .split).after .mergeChains).Reachable id →
      (graph.after .mergeChains).Reachable id ∧
        ((graph.after .split).after .mergeChains).code? id =
          (graph.after .mergeChains).code? id := by
    intro id hid
    obtain ⟨code, hcode⟩ := code?_of_lt hid.lt
    have hbundled := (hstrands id code).mp (hsplit.code?_mergeAll_iff.mp ⟨hid, hcode⟩)
    obtain ⟨hid', hcode'⟩ := h.code?_mergeAll_iff.mpr hbundled
    exact ⟨hid', hcode.trans hcode'.symm⟩
  refine ⟨⟨hrejoined.toWired, hmerged.toWired, ?_, fun id hid => (hcode id hid).2⟩,
    hrejoined, hmerged, ?_⟩
  · calc ((graph.after .split).after .mergeChains).entry
        = graph.splitAll.setParents.entry := entry_mergeAll _ _
      _ = graph.entry := entry_splitAll graph
      _ = (graph.after .mergeChains).entry := (entry_mergeAll _ graph).symm
  · intro id hid
    have hlt : id < graph.blocks.size := by
      obtain ⟨code, hmerged⟩ := code?_of_lt (hcode id hid).1.lt
      exact (h.code?_mergeAll_iff.mp ⟨(hcode id hid).1, hmerged⟩).reached.lt
    calc ((graph.after .split).after .mergeChains).labelOf id
        = graph.splitAll.setParents.labelOf id := labelOf_mergeAll _ _ id
      _ = graph.splitAll.labelOf id := labelOf_setParents _ id
      _ = graph.labelOf id := labelOf_splitAll hlt
      _ = (graph.after .mergeChains).labelOf id := (labelOf_mergeAll _ graph id).symm

end Graph

namespace Program

/-- Wherever passes led, splitting the graph and then merging it makes the same of it as merging it
at once: the same entry, the same blocks in the same order, each with its index, its label, its
statements, its exit and its parents, and the same text. -/
theorem merge_of_split {program : Program} {built : Graph} (h : program.graph = .ok built)
    (passes : List Pass) :
    ∃ graph pieces rejoined merged, passes.foldlM Graph.apply built = .ok graph ∧
      graph.apply .split = .ok pieces ∧ pieces.apply .mergeChains = .ok rejoined ∧
      graph.apply .mergeChains = .ok merged ∧
      rejoined.entry = merged.entry ∧ rejoined.order = merged.order ∧
      rejoined.reachable = merged.reachable ∧
      program.graphText rejoined = program.graphText merged := by
  obtain ⟨hpasses, hwf⟩ := (wellFormed_graph h).foldlM_apply passes
  obtain ⟨hsplit, hwf'⟩ := hwf.apply .split
  have htwin := hwf.twin_rejoined
  exact ⟨_, _, _, _, hpasses, hsplit, (hwf'.apply .mergeChains).1, (hwf.apply .mergeChains).1,
    htwin.entry, htwin.order_eq, htwin.reachable_eq, htwin.graphText_eq program⟩

/-- An endless loop over two statements. -/
def longLoop : Program :=
  let tree := sampleNode (.other "program") 0 22 []
    [sampleNode .whileStatement 0 22 []
      [sampleNode .parenthesizedExpression 6 12 [.condition] [sampleNode .trueLiteral 7 11 [] []],
        sampleNode .statementBlock 13 22 [.body]
          [sampleNode .expressionStatement 15 17 [] [sampleNode .identifier 15 16 [] []],
            sampleNode .expressionStatement 18 20 [] [sampleNode .identifier 18 19 [] []]]]]
  ⟨"while (true) { a; b; }", .javascript, tree.number 0, tree.nodup_ids_number 0⟩

theorem merge_of_split_longLoop : ∃ built graph pieces rejoined merged,
    longLoop.graph = .ok built ∧ [Pass.trueBranches].foldlM Graph.apply built = .ok graph ∧
      graph.apply .split = .ok pieces ∧ pieces.order = [0, 2, 3, 4] ∧
      pieces.apply .mergeChains = .ok rejoined ∧ graph.apply .mergeChains = .ok merged ∧
      merged.order = [0, 2] ∧ rejoined.reachable = merged.reachable := by
  have hrun : (do
      let built ← longLoop.graph
      let graph ← [Pass.trueBranches].foldlM Graph.apply built
      let pieces ← graph.apply .split
      let merged ← graph.apply .mergeChains
      return (pieces.order, merged.order)) = .ok ([0, 2, 3, 4], [0, 2]) := by
    cbv
  obtain ⟨built, hbuilt, hrun⟩ := exists_of_bind_eq_ok hrun
  obtain ⟨graph, hgraph, hrun⟩ := exists_of_bind_eq_ok hrun
  obtain ⟨pieces, hpieces, hrun⟩ := exists_of_bind_eq_ok hrun
  obtain ⟨merged, hmerged, hrun⟩ := exists_of_bind_eq_ok hrun
  obtain ⟨hsplit, hjoined⟩ := Prod.mk.inj (Except.ok.inj hrun)
  obtain ⟨graph', pieces', rejoined, merged', hgraph', hpieces', hrejoined, hmerged', -, -,
    hsame, -⟩ := merge_of_split hbuilt [.trueBranches]
  cases hgraph.symm.trans hgraph'
  cases hpieces.symm.trans hpieces'
  cases hmerged.symm.trans hmerged'
  exact ⟨built, graph, pieces, rejoined, merged, hbuilt, hgraph, hpieces, hsplit, hrejoined,
    hmerged, hjoined, hsame⟩

end Program

end DefUse
