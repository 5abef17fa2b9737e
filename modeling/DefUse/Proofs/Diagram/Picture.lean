/-
# `Proofs.Diagram.Picture` — a diagram shows its graph, no more and no less

A diagram numbers the reachable blocks from one, in breadth-first order, and the edges
after them.  Its edges name blocks by these numbers, so that drawing one has to look
blocks up: the ends of each edge of the graph, and the blocks in which a variable is
read or assigned.  Every such block has a number (`Graph.number?`), for what can be
reached is closed under edges and nothing else is asked for a block.  What a picture
of a graph has to have is said in `Diagram.Pictures`, and every diagram has it
(`Program.diagram_pictures`).

The dependencies between blocks are told twice: the diagram draws them between numbers,
and the summary lists them under labels.  Labels tell reachable blocks apart, so that
both tell the same (`Program.summary_iff_depends`).
-/
import DefUse.Proofs.Diagram.Depends

namespace DefUse

open DefUse.Tree
open scoped List

/-! ## Numbers -/

namespace Graph

/-- The number that was given to a block, if it was given one. -/
def number? (graph : Graph) (id : BlockId) : Option Nat :=
  (graph.order.zipIdx 1).lookup id

variable {graph : Graph} {id : BlockId}

theorem lookup_zipIdx {ids : List BlockId} (h : id ∈ ids) (first : Nat) :
    (ids.zipIdx first).lookup id = some (ids.idxOf id + first) := by
  induction ids generalizing first with
  | nil => cases h
  | cons other rest ih =>
      by_cases heq : id = other
      · subst heq
        simp
      · have hrest : id ∈ rest := (List.mem_cons.mp h).resolve_left heq
        simp only [List.zipIdx_cons, List.lookup_cons, beq_false_of_ne heq, ih hrest,
          List.idxOf_cons_ne _ (Ne.symm heq)]
        congr 1
        omega

theorem number?_of_reachable (h : graph.Reachable id) :
    graph.number? id = some (graph.number id) :=
  lookup_zipIdx (mem_order.mpr h) 1

/-- The number of a block tells its place in the order. -/
theorem getElem?_number (h : graph.Reachable id) :
    graph.order[graph.number id - 1]? = some id := by
  simpa [number] using List.getElem?_idxOf (mem_order.mpr h)

/-- The reachable blocks stand in the order of their indices. -/
theorem getElem?_reachable (graph : Graph) (i : Nat) :
    graph.reachable[i]? = graph.order[i]?.bind graph.block? := by
  have hall : ∀ (ids : List BlockId) (i : Nat), (∀ id ∈ ids, id < graph.blocks.size) →
      (ids.filterMap graph.block?)[i]? = ids[i]?.bind graph.block? := by
    intro ids
    induction ids with
    | nil => simp
    | cons id rest ih =>
        intro i hids
        obtain ⟨block, hblock⟩ := block?_of_lt (hids id List.mem_cons_self)
        rw [List.filterMap_cons_some hblock]
        cases i with
        | zero => simp [hblock]
        | succ i => simpa using ih i fun other hother => hids other (List.mem_cons_of_mem _ hother)
  exact hall graph.order i fun id hid => (mem_order.mp hid).lt

theorem length_reachable (graph : Graph) : graph.reachable.length = graph.order.length := by
  have hlength := congrArg List.length (map_label_reachable graph)
  simpa using hlength

end Graph

/-! ## Edges -/

namespace Diagram

variable {program : Program} {graph : Graph} {dependencies : Option Dependencies}

/-- What is drawn connects reachable blocks. -/
theorem reachable_of_mem_drawn (h : graph.Wired) {edge : BlockId × BlockId × EdgeLabel}
    (hedge : edge ∈ drawn graph dependencies) :
    graph.Reachable edge.1 ∧ graph.Reachable edge.2.1 := by
  rcases List.mem_append.mp hedge with hedge | hedge
  · obtain ⟨id, hid, hedge⟩ := List.mem_flatMap.mp hedge
    obtain ⟨transition, htransition, rfl⟩ := List.mem_map.mp hedge
    have hsuccessor : transition.2 ∈ graph.successors id := List.mem_map_of_mem htransition
    have hid := Graph.mem_order.mp hid
    exact ⟨hid, .step hid hsuccessor (h.targets _ _ hsuccessor)⟩
  · cases dependencies with
    | none => cases hedge
    | some dependencies =>
        obtain ⟨pair, hpair, rfl⟩ := List.mem_map.mp hedge
        exact Graph.reachable_of_mem_dependencyPairs hpair

theorem exists_drawn {edge : DiagramEdge}
    (h : edge ∈ (ofGraph program graph dependencies).edges) :
    ∃ line ∈ drawn graph dependencies, edge.source = graph.number line.1 ∧
      edge.target = graph.number line.2.1 ∧ edge.label = line.2.2 := by
  have hmem := List.mem_map_of_mem (f := fun edge => (edge.source, edge.target, edge.label)) h
  rw [map_edges_ofGraph fun source target label => (source, target, label)] at hmem
  obtain ⟨line, hline, heq⟩ := List.mem_map.mp hmem
  simp only [Prod.mk.injEq] at heq
  exact ⟨line, hline, heq.1.symm, heq.2.1.symm, heq.2.2.symm⟩

theorem length_edges_ofGraph :
    (ofGraph program graph dependencies).edges.length = (drawn graph dependencies).length := by
  simp [ofGraph, drawn]

/-! ## Pictures -/

/-- The diagram shows the graph, and the dependencies between its blocks. -/
structure Pictures (diagram : Diagram) (program : Program) (graph : Graph)
    (dependencies : Option Dependencies) : Prop where
  /-- There are as many nodes as reachable blocks. -/
  count : diagram.nodes.length = graph.order.length
  /-- In breadth-first order each node is that of a block, and they are numbered from one. -/
  nodes : ∀ i id, graph.order[i]? = some id → ∃ block, graph.block? id = some block ∧
    block.id = id ∧ diagram.nodes[i]? = some (nodeOf program block (i + 1))
  /-- Every block that was looked up for an edge was found. -/
  found : (diagram.edges.map fun edge => (some edge.source, some edge.target, edge.label)) =
    (drawn graph dependencies).map fun edge =>
      (graph.number? edge.1, graph.number? edge.2.1, edge.2.2)
  /-- The edges are numbered on from the nodes. -/
  numbers : diagram.edges.map DiagramEdge.id =
    List.range' (graph.order.length + 1) diagram.edges.length
  /-- No number is given twice. -/
  distinct : (diagram.nodes.map DiagramNode.id ++ diagram.edges.map DiagramEdge.id).Nodup
  /-- Edges lead from node to node. -/
  ends : ∀ edge ∈ diagram.edges, edge.source ∈ diagram.nodes.map DiagramNode.id ∧
    edge.target ∈ diagram.nodes.map DiagramNode.id
  /-- The edges that are not for dependencies are those of the graph, one by one and in order. -/
  control : ((diagram.edges.filter fun edge => edge.label ≠ .depends).map fun edge =>
      (graph.order[edge.source - 1]?, graph.order[edge.target - 1]?, edge.label)) =
    graph.order.flatMap fun id => (graph.exitOf id).edges.map fun edge =>
      (some id, some edge.2, .control edge.1)

theorem length_nodes_ofGraph :
    (ofGraph program graph dependencies).nodes.length = graph.order.length := by
  simp [ofGraph, Graph.length_reachable]

theorem labels_ofGraph : (ofGraph program graph dependencies).nodes.map DiagramNode.label =
    graph.reachable.map Block.label := by
  conv_rhs => rw [← List.zipIdx_map_fst 1 graph.reachable]
  rw [ofGraph, List.map_map, List.map_map]
  rfl

theorem ids_nodes_ofGraph :
    (ofGraph program graph dependencies).nodes.map DiagramNode.id =
      List.range' 1 graph.order.length := by
  rw [← graph.length_reachable, ← List.zipIdx_map_snd 1 graph.reachable, ofGraph, List.map_map]
  rfl

theorem ids_edges_ofGraph :
    (ofGraph program graph dependencies).edges.map DiagramEdge.id =
      List.range' (graph.order.length + 1) (drawn graph dependencies).length := by
  rw [← List.zipIdx_map_snd (graph.order.length + 1) (drawn graph dependencies), ofGraph,
    List.map_map]
  rfl

theorem number_mem_ids {id : BlockId} (h : graph.Reachable id) :
    graph.number id ∈ (ofGraph program graph dependencies).nodes.map DiagramNode.id := by
  have hlt := List.idxOf_lt_length_of_mem (Graph.mem_order.mpr h)
  rw [ids_nodes_ofGraph, List.mem_range'_1, Graph.number]
  omega

/-- The node of a place in the order is that of the block at this place. -/
theorem getElem?_nodes_ofGraph {i : Nat} {id : BlockId} (h : graph.order[i]? = some id) :
    ∃ block, graph.block? id = some block ∧
      (ofGraph program graph dependencies).nodes[i]? = some (nodeOf program block (i + 1)) := by
  obtain ⟨block, hblock⟩ :=
    Graph.block?_of_lt (Graph.mem_order.mp (List.mem_of_getElem? h)).lt
  refine ⟨block, hblock, ?_⟩
  simp [ofGraph, Graph.getElem?_reachable, h, hblock, Nat.add_comm]

/-- A diagram of a graph whose edges lead somewhere is a picture of it. -/
theorem pictures_ofGraph (h : graph.Wired) :
    (ofGraph program graph dependencies).Pictures program graph dependencies where
  count := length_nodes_ofGraph
  nodes := by
    intro i id hid
    obtain ⟨block, hblock, hnode⟩ := getElem?_nodes_ofGraph hid
    exact ⟨block, hblock, h.ids id block hblock, hnode⟩
  found := by
    rw [map_edges_ofGraph fun source target label => (some source, some target, label)]
    refine List.map_congr_left fun edge hedge => ?_
    obtain ⟨hsource, htarget⟩ := reachable_of_mem_drawn h hedge
    rw [Graph.number?_of_reachable hsource, Graph.number?_of_reachable htarget]
  numbers := by
    rw [ids_edges_ofGraph, length_edges_ofGraph]
  distinct := by
    rw [ids_nodes_ofGraph, ids_edges_ofGraph, Nat.add_comm graph.order.length 1,
      List.range'_append_1]
    exact List.nodup_range'
  ends := by
    intro edge hedge
    obtain ⟨line, hline, hsource, htarget, -⟩ := exists_drawn hedge
    obtain ⟨hfirst, hsecond⟩ := reachable_of_mem_drawn h hline
    rw [hsource, htarget]
    exact ⟨number_mem_ids hfirst, number_mem_ids hsecond⟩
  control := by
    rw [map_filter_edges_ofGraph (fun label => decide (label ≠ .depends))
      fun source target label => (graph.order[source - 1]?, graph.order[target - 1]?, label)]
    have hplaces : ∀ line ∈ graph.order.flatMap (controlEdges graph),
        (graph.order[graph.number line.1 - 1]?, graph.order[graph.number line.2.1 - 1]?,
          line.2.2) = (some line.1, some line.2.1, line.2.2) := by
      intro line hline
      have hdrawn : line ∈ drawn graph dependencies := List.mem_append_left _ hline
      obtain ⟨hsource, htarget⟩ := reachable_of_mem_drawn h hdrawn
      rw [Graph.getElem?_number hsource, Graph.getElem?_number htarget]
    rw [filter_drawn_control, List.map_congr_left hplaces, List.map_flatMap]
    simp only [controlEdges, List.map_map]
    rfl

end Diagram

/-! ## Two ways to tell dependencies -/

/-- An edge for a dependency leads from a node with the one label to a node with the other. -/
def Diagram.Depends (diagram : Diagram) (source target : String) : Prop :=
  ∃ node ∈ diagram.nodes, ∃ other ∈ diagram.nodes, node.label = source ∧ other.label = target ∧
    (node.id, other.id) ∈ diagram.dependsPairs

instance (diagram : Diagram) (source target : String) :
    Decidable (diagram.Depends source target) :=
  inferInstanceAs (Decidable (∃ node ∈ diagram.nodes, ∃ other ∈ diagram.nodes,
    node.label = source ∧ other.label = target ∧ (node.id, other.id) ∈ diagram.dependsPairs))

/-- The summary lists the one label in an entry for the other. -/
def Listed (summary : List (String × List String)) (source target : String) : Prop :=
  ∃ listed, (source, listed) ∈ summary ∧ target ∈ listed

namespace Diagram

variable {program : Program} {graph : Graph} {dependencies : Option Dependencies}

/-- The nodes are those of the reachable blocks, each with the number of its block. -/
theorem mem_nodes_ofGraph {node : DiagramNode} :
    node ∈ (ofGraph program graph dependencies).nodes ↔ ∃ id block, graph.Reachable id ∧
      graph.block? id = some block ∧ node = nodeOf program block (graph.number id) := by
  constructor
  · intro hnode
    obtain ⟨i, hi⟩ := List.mem_iff_getElem?.mp hnode
    have hlt : i < graph.order.length := by
      rw [← length_nodes_ofGraph]
      exact (List.getElem?_eq_some_iff.mp hi).1
    have hid : graph.order[i]? = some graph.order[i] := List.getElem?_eq_getElem hlt
    obtain ⟨block, hblock, hplace⟩ := getElem?_nodes_ofGraph hid
    refine ⟨graph.order[i], block, Graph.mem_order.mp (List.getElem_mem hlt), hblock, ?_⟩
    rw [Graph.number, graph.nodup_order.idxOf_getElem i hlt]
    exact Option.some.inj (hi.symm.trans hplace)
  · rintro ⟨id, block, hid, hblock, rfl⟩
    obtain ⟨block', hblock', hplace⟩ := getElem?_nodes_ofGraph (Graph.getElem?_number hid)
    cases hblock.symm.trans hblock'
    exact List.mem_of_getElem? hplace

/-- Dependencies are drawn between the labels of the blocks that read and that assign. -/
theorem depends_ofGraph_iff {dependencies : Dependencies} {source target : String} :
    (ofGraph program graph (some dependencies)).Depends source target ↔
      ∃ pair ∈ graph.dependencyPairs dependencies,
        graph.labelOf pair.1 = source ∧ graph.labelOf pair.2 = target := by
  rw [Depends, dependsPairs_ofGraph]
  constructor
  · rintro ⟨node, hnode, other, hother, rfl, rfl, hmem⟩
    obtain ⟨id, block, hid, hblock, rfl⟩ := mem_nodes_ofGraph.mp hnode
    obtain ⟨id', block', hid', hblock', rfl⟩ := mem_nodes_ofGraph.mp hother
    obtain ⟨pair, hpair, heq⟩ := List.mem_map.mp hmem
    obtain ⟨hfirst, hsecond⟩ := Prod.mk.inj heq
    -- numbers tell blocks apart
    have hread : id = pair.1 := Graph.number_inj hid hfirst.symm
    have hassigned : id' = pair.2 := Graph.number_inj hid' hsecond.symm
    refine ⟨pair, hpair, ?_, ?_⟩
    · rw [← hread]
      exact Graph.labelOf_of_block? hblock
    · rw [← hassigned]
      exact Graph.labelOf_of_block? hblock'
  · rintro ⟨pair, hpair, rfl, rfl⟩
    obtain ⟨hread, hassigned⟩ := Graph.reachable_of_mem_dependencyPairs hpair
    obtain ⟨block, hblock⟩ := Graph.block?_of_lt hread.lt
    obtain ⟨block', hblock'⟩ := Graph.block?_of_lt hassigned.lt
    refine ⟨_, mem_nodes_ofGraph.mpr ⟨pair.1, block, hread, hblock, rfl⟩,
      _, mem_nodes_ofGraph.mpr ⟨pair.2, block', hassigned, hblock', rfl⟩, ?_, ?_, ?_⟩
    · exact (Graph.labelOf_of_block? hblock).symm
    · exact (Graph.labelOf_of_block? hblock').symm
    · exact List.mem_map_of_mem (f := fun pair => (graph.number pair.1, graph.number pair.2)) hpair

end Diagram

namespace Graph

variable {graph : Graph} {dependencies : Dependencies} {source target : String}

/-- The summary lists the labels of blocks that read and of other blocks that assign. -/
theorem listed_blockDependencies_iff :
    Listed (graph.blockDependencies dependencies) source target ↔
      ∃ pair ∈ graph.dependencyPairs dependencies, pair.1 ≠ pair.2 ∧
        graph.labelOf pair.1 = source ∧ graph.labelOf pair.2 = target := by
  constructor
  · rintro ⟨listed, hentry, htarget⟩
    obtain ⟨label, -, heq⟩ := List.mem_map.mp hentry
    obtain ⟨rfl, rfl⟩ := Prod.mk.inj heq
    simp only [sortLabels, Sorted.mem_ofList, List.mem_map, List.mem_filter,
      decide_eq_true_eq] at htarget
    obtain ⟨pair, ⟨⟨hpair, hne⟩, hsource⟩, htarget⟩ := htarget
    exact ⟨pair, hpair, hne, hsource, htarget⟩
  · rintro ⟨pair, hpair, hne, rfl, rfl⟩
    obtain ⟨hread, -⟩ := reachable_of_mem_dependencyPairs hpair
    have hlabel : graph.labelOf pair.1 ∈ sortLabels (graph.order.map graph.labelOf) :=
      Sorted.mem_ofList.mpr (List.mem_map_of_mem (mem_order.mpr hread))
    refine ⟨_, List.mem_map.mpr ⟨_, hlabel, rfl⟩, ?_⟩
    simp only [sortLabels, Sorted.mem_ofList, List.mem_map, List.mem_filter, decide_eq_true_eq]
    exact ⟨pair, ⟨⟨hpair, hne⟩, rfl⟩, rfl⟩

theorem nodup_listed {entry : String × List String}
    (h : entry ∈ graph.blockDependencies dependencies) : entry.2.Nodup := by
  obtain ⟨label, -, rfl⟩ := List.mem_map.mp h
  exact nodup_sortLabels _

/-- Where labels differ, blocks differ, and the summary tells what the diagram draws. -/
theorem Labelled.listed_iff_depends (h : graph.Labelled) (program : Program) :
    Listed (graph.blockDependencies dependencies) source target ↔ source ≠ target ∧
      (Diagram.ofGraph program graph (some dependencies)).Depends source target := by
  rw [listed_blockDependencies_iff, Diagram.depends_ofGraph_iff]
  constructor
  · rintro ⟨pair, hpair, hne, rfl, rfl⟩
    obtain ⟨hread, hassigned⟩ := reachable_of_mem_dependencyPairs hpair
    exact ⟨fun heq => hne (h.distinct _ _ hread hassigned heq), pair, hpair, rfl, rfl⟩
  · rintro ⟨hne, pair, hpair, rfl, rfl⟩
    exact ⟨pair, hpair, fun heq => hne (congrArg graph.labelOf heq), rfl, rfl⟩

end Graph

namespace Program

variable {program : Program}

/-- A diagram shows its graph, whatever passes were run and whatever dependencies are drawn: its
nodes are the reachable blocks, each once and in breadth-first order, and its edges are theirs,
with those for dependencies after them. -/
theorem diagram_pictures {built : Graph} (h : program.graph = .ok built) (passes : List Pass)
    (dependencies : Option Dependencies) :
    ∃ graph, passes.foldlM Graph.apply built = .ok graph ∧
      graph.order.Nodup ∧ (∀ id, id ∈ graph.order ↔ graph.Reachable id) ∧
      (Diagram.ofGraph program graph dependencies).Pictures program graph dependencies := by
  obtain ⟨hok, hwf⟩ := (wellFormed_graph h).foldlM_apply passes
  exact ⟨_, hok, Graph.nodup_order _, fun _ => Graph.mem_order,
    Diagram.pictures_ofGraph hwf.toWired⟩

/-- An empty branch: without jumps that do nothing, both its arms lead to one block. -/
def emptyArm : Program :=
  let tree := sampleNode (.other "program") 0 9 []
    [sampleNode .ifStatement 0 9 []
      [sampleNode .parenthesizedExpression 3 6 [.condition] [sampleNode .identifier 4 5 [] []],
        sampleNode .statementBlock 7 9 [.consequence] []]]
  ⟨"if (a) {}", .javascript, tree.number 0, tree.nodup_ids_number 0⟩

theorem diagram_pictures_emptyArm : ∃ built graph, emptyArm.graph = .ok built ∧
    [.emptyJumps].foldlM Graph.apply built = .ok graph ∧
    (Diagram.ofGraph emptyArm graph none).edges =
      [⟨3, 1, 2, .control .onTrue⟩, ⟨4, 1, 2, .control .onFalse⟩] ∧
    (Diagram.ofGraph emptyArm graph none).Pictures emptyArm graph none := by
  have hrun : (do
      let built ← emptyArm.graph
      let graph ← [Pass.emptyJumps].foldlM Graph.apply built
      return (Diagram.ofGraph emptyArm graph none).edges) =
        .ok [⟨3, 1, 2, .control .onTrue⟩, ⟨4, 1, 2, .control .onFalse⟩] := by
    cbv
  obtain ⟨built, hbuilt, hrun⟩ := exists_of_bind_eq_ok hrun
  obtain ⟨graph, hgraph, hedges⟩ := exists_of_bind_eq_ok hrun
  obtain ⟨graph', hgraph', -, -, hpictures⟩ := diagram_pictures hbuilt [.emptyJumps] none
  cases hgraph.symm.trans hgraph'
  exact ⟨built, graph, hbuilt, hgraph, Except.ok.inj hedges, hpictures⟩

/-- Either analysis speaks of the simplified graph. -/
theorem graph_of_analysis {config : Config} {analysis : Analysis}
    (h : program.analyze config = .ok analysis ∨ program.analyzeLexical config = .ok analysis) :
    ∃ built, program.graph = .ok built ∧
      analysis.graph = config.simplify.passes.foldl Graph.after built := by
  rcases h with h | h
  · obtain ⟨built, hbuilt, found, -, rfl⟩ := analyze_eq_ok.mp h
    exact ⟨built, hbuilt, rfl⟩
  · obtain ⟨built, hbuilt, h⟩ := exists_of_bind_eq_ok h
    obtain ⟨graph, hgraph, h⟩ := exists_of_bind_eq_ok h
    obtain ⟨found, -, h⟩ := exists_of_bind_eq_ok h
    cases h
    have hok := ((wellFormed_graph hbuilt).foldlM_apply config.simplify.passes).1
    exact ⟨built, hbuilt, Except.ok.inj (hgraph.symm.trans hok)⟩

/-- The summary and the diagram of an analysis tell the same: the summary has one entry for each
node, nodes have different labels, and a label is listed, once, under another one just if an edge
for a dependency leads from the node with this other label to the node with the label. -/
theorem summary_iff_depends {config : Config} {analysis : Analysis}
    (h : program.analyze config = .ok analysis ∨ program.analyzeLexical config = .ok analysis) :
    (analysis.graph.blockDependencies analysis.dependencies).map Prod.fst ~
        analysis.graph.reachable.map Block.label ∧
      (analysis.graph.reachable.map Block.label).Nodup ∧
      (Diagram.ofGraph program analysis.graph (some analysis.dependencies)).nodes.map
          DiagramNode.label = analysis.graph.reachable.map Block.label ∧
      (∀ entry ∈ analysis.graph.blockDependencies analysis.dependencies, entry.2.Nodup) ∧
      ∀ source target,
        Listed (analysis.graph.blockDependencies analysis.dependencies) source target ↔
          source ≠ target ∧
            (Diagram.ofGraph program analysis.graph (some analysis.dependencies)).Depends
              source target := by
  obtain ⟨built, hbuilt, hgraph⟩ := graph_of_analysis h
  have hlabelled : analysis.graph.Labelled := hgraph ▸ labelled_passes hbuilt _
  refine ⟨hlabelled.perm_keys _, hlabelled.nodup_labels, Diagram.labels_ofGraph,
    fun _ hentry => Graph.nodup_listed hentry, fun _ _ => hlabelled.listed_iff_depends program⟩

/-- The loop of the sample reads its own assignment as well, and does not list itself. -/
theorem summary_iff_depends_sample : ∃ analysis, sample.analyze {} = .ok analysis ∧
    Listed (analysis.graph.blockDependencies analysis.dependencies) "loop4" "start1" ∧
    (Diagram.ofGraph sample analysis.graph (some analysis.dependencies)).Depends
      "loop4" "loop4" ∧
    ¬ Listed (analysis.graph.blockDependencies analysis.dependencies) "loop4" "loop4" := by
  have hrun : (do
      let analysis ← sample.analyze {}
      let diagram := Diagram.ofGraph sample analysis.graph (some analysis.dependencies)
      return (decide (diagram.Depends "loop4" "start1"),
        decide (diagram.Depends "loop4" "loop4"))) = .ok (true, true) := by
    cbv
  obtain ⟨analysis, h, hrun⟩ := exists_of_bind_eq_ok hrun
  obtain ⟨hother, hself⟩ := Prod.mk.inj (Except.ok.inj hrun)
  obtain ⟨-, -, -, -, hlisted⟩ := summary_iff_depends (.inl h)
  refine ⟨analysis, h, ?_, of_decide_eq_true hself, ?_⟩
  · exact (hlisted "loop4" "start1").mpr ⟨by decide, of_decide_eq_true hother⟩
  · exact fun hloop => ((hlisted "loop4" "loop4").mp hloop).1 rfl

end Program

end DefUse
