/-
# `Proofs.Diagram.Depends` — the edges for dependencies are exact

Which block reads a variable, and which block makes an assignment, is known while a graph
is analysed.  The diagram finds it out afterwards, from the source alone: the block of a
site is the first one that holds something around it (`Graph.blockContaining?`).

In a well nested tree there is one such block (`Program.blockContaining?_eq`).  A site lies
below what its own block holds; blocks hold parts of the tree that do not overlap; and
parts that do not overlap have no character in common.  So the edges of a diagram are
those from the blocks that read to the blocks whose assignments they read
(`Program.depends_edges_exact`), of an analysis that was cut short as well.
-/
import DefUse.Proofs.Analysis
import DefUse.Proofs.Diagram.Summary
import DefUse.Proofs.Effect.Origin
import DefUse.Proofs.Tree.Nesting

namespace DefUse

open DefUse.Tree
open scoped List

/-! ## What blocks list -/

namespace Graph

/-- The block is reachable, and its effects or what its exit reads list the site. -/
def ListsRead (graph : Graph) (id : BlockId) (site : Site) : Prop :=
  id ∈ graph.order ∧ ∃ block effects, graph.block? id = some block ∧
    block.effects = .ok effects ∧
    (site ∈ effects.steps.flatMap Effect.reads ∨ site ∈ effects.exitReads)

/-- The block is reachable, and one of its effects makes the assignment. -/
def Performs (graph : Graph) (id : BlockId) (assignment : Assignment) : Prop :=
  id ∈ graph.order ∧ ∃ block effects, graph.block? id = some block ∧
    block.effects = .ok effects ∧ ∃ step ∈ effects.steps, step.write = some assignment

end Graph

theorem Effect.read_mem_actions {effect : Effect} {site : Site} :
    .read site ∈ effect.actions ↔ site ∈ effect.reads := by
  rw [← mem_readSites, readSites_actions]

theorem Effect.write_mem_actions {effect : Effect} {assignment : Assignment} :
    .write assignment ∈ effect.actions ↔ effect.write = some assignment := by
  simp [actions]

theorem BlockEffects.read_mem_actions {effects : BlockEffects} {site : Site} :
    .read site ∈ effects.actions ↔
      site ∈ effects.steps.flatMap Effect.reads ∨ site ∈ effects.exitReads := by
  simp only [actions, List.mem_append, List.mem_flatMap, Effect.read_mem_actions]
  simp

theorem BlockEffects.write_mem_actions {effects : BlockEffects} {assignment : Assignment} :
    .write assignment ∈ effects.actions ↔
      ∃ step ∈ effects.steps, step.write = some assignment := by
  simp only [actions, List.mem_append, List.mem_flatMap, Effect.write_mem_actions]
  simp

namespace Graph

variable {graph : Graph} {found : List (BlockId × BlockEffects)} {id : BlockId}

/-- Every reachable block has effects, and they are its actions. -/
theorem exists_block_effects (h : graph.effects = .ok found) (hid : graph.Reachable id) :
    ∃ block effects, graph.block? id = some block ∧ block.effects = .ok effects ∧
      effects.actions = graph.actionsAt id := by
  obtain ⟨block, hblock⟩ := block?_of_lt hid.lt
  have hmem : block ∈ graph.reachable := List.mem_filterMap.mpr ⟨id, mem_order.mpr hid, hblock⟩
  obtain ⟨entry, hentry⟩ := exists_mapM_iff.mp ⟨found, h⟩ block hmem
  obtain ⟨effects, heffects, -⟩ := exists_of_bind_eq_ok hentry
  refine ⟨block, effects, hblock, heffects, ?_⟩
  rw [Block.actions_of_effects heffects, actionsAt_of_code? (code?_of_block? hblock)]

theorem actions_of_block {block : Block} {effects : BlockEffects}
    (hblock : graph.block? id = some block) (heffects : block.effects = .ok effects) :
    effects.actions = graph.actionsAt id := by
  rw [Block.actions_of_effects heffects, actionsAt_of_code? (code?_of_block? hblock)]

theorem listsRead_iff (h : graph.effects = .ok found) {site : Site} :
    graph.ListsRead id site ↔ graph.Reachable id ∧ .read site ∈ graph.actionsAt id := by
  constructor
  · rintro ⟨hid, block, effects, hblock, heffects, hsite⟩
    rw [← actions_of_block hblock heffects, BlockEffects.read_mem_actions]
    exact ⟨mem_order.mp hid, hsite⟩
  · rintro ⟨hid, hread⟩
    obtain ⟨block, effects, hblock, heffects, hactions⟩ := exists_block_effects h hid
    rw [← hactions, BlockEffects.read_mem_actions] at hread
    exact ⟨mem_order.mpr hid, block, effects, hblock, heffects, hread⟩

theorem performs_iff (h : graph.effects = .ok found) {assignment : Assignment} :
    graph.Performs id assignment ↔
      graph.Reachable id ∧ .write assignment ∈ graph.actionsAt id := by
  constructor
  · rintro ⟨hid, block, effects, hblock, heffects, hwrite⟩
    rw [← actions_of_block hblock heffects, BlockEffects.write_mem_actions]
    exact ⟨mem_order.mp hid, hwrite⟩
  · rintro ⟨hid, hwrite⟩
    obtain ⟨block, effects, hblock, heffects, hactions⟩ := exists_block_effects h hid
    rw [← hactions, BlockEffects.write_mem_actions] at hwrite
    exact ⟨mem_order.mpr hid, block, effects, hblock, heffects, hwrite⟩

end Graph

/-- What a block reads is a variable. -/
theorem Code.isVariable_of_read (program : Program) {code : Code} {site : Site}
    (h : .read site ∈ code.actions) : site.isVariable = true := by
  rcases List.mem_append.mp h with h | h
  · obtain ⟨statement, -, h⟩ := List.mem_flatMap.mp h
    rw [statementActions] at h
    split at h
    · rename_i steps hsteps
      obtain ⟨step, hstep, h⟩ := List.mem_flatMap.mp h
      exact isVariable_of_effects program hsteps hstep (Effect.read_mem_actions.mp h)
    · cases h
  · obtain ⟨expression, -, h⟩ := List.mem_flatMap.mp h
    rw [expressionActions] at h
    split at h
    · rename_i sites hsites
      obtain ⟨read, hread, heq⟩ := List.mem_map.mp h
      cases heq
      exact isVariable_of_reads hsites site hread
    · cases h

/-! ## The block of a site -/

namespace Graph

variable {graph : Graph}

/-- If what is held does not overlap, a node lies in what one block holds. -/
theorem eq_of_mem_heldAt (hnodup : (graph.held.flatMap Node.nodes).Nodup) {id other : BlockId}
    (hid : graph.Reachable id) (hother : graph.Reachable other) {node : Node}
    (hnode : node ∈ (graph.heldAt id).flatMap Node.nodes)
    (hnode' : node ∈ (graph.heldAt other).flatMap Node.nodes) : id = other := by
  rw [held, List.flatMap_assoc] at hnodup
  obtain ⟨-, hapart⟩ := List.nodup_flatMap.mp hnodup
  by_contra hne
  have : Std.Symm (Function.onFun List.Disjoint fun id => (graph.heldAt id).flatMap Node.nodes) :=
    ⟨fun _ _ h _ hfirst hsecond => h hsecond hfirst⟩
  exact hapart.forall (mem_order.mpr hid) (mem_order.mpr hother) hne hnode hnode'

theorem owns_iff {id : BlockId} (hid : graph.Reachable id) {site : Site} :
    (graph.block? id).any (Block.owns site) = true ↔
      ∃ part ∈ graph.heldAt id, part.site.covers site = true := by
  obtain ⟨block, hblock⟩ := block?_of_lt hid.lt
  rw [hblock, Option.any_some, Block.owns, List.any_eq_true,
    heldAt_of_code? (code?_of_block? hblock)]
  exact Iff.rfl

/-- If one reachable block holds something around the site, it is found. -/
theorem blockContaining?_of_unique {id : BlockId} {site : Site} (hid : graph.Reachable id)
    (howns : ∃ part ∈ graph.heldAt id, part.site.covers site = true)
    (hunique : ∀ other, graph.Reachable other →
      (∃ part ∈ graph.heldAt other, part.site.covers site = true) → other = id) :
    graph.blockContaining? site = some id := by
  have hsome : (graph.blockContaining? site).isSome := by
    rw [blockContaining?, List.find?_isSome]
    exact ⟨id, mem_order.mpr hid, (owns_iff hid).mpr howns⟩
  obtain ⟨found, hfound⟩ := Option.isSome_iff_exists.mp hsome
  have hreach := reachable_of_blockContaining? hfound
  rw [blockContaining?] at hfound
  have howned := List.find?_some hfound
  rw [blockContaining?, hfound, hunique found hreach ((owns_iff hreach).mp howned)]

end Graph

namespace Program

variable {program : Program} {built : Graph}

/-- The block of a node with a character is the one that holds what the node lies in. -/
theorem blockContaining?_eq (h : program.graph = .ok built) (hroles : program.SingleRoles)
    (hnested : program.root.WellNested) (passes : List Pass) {id : BlockId}
    (hid : (passes.foldl Graph.after built).Reachable id) {node : Node}
    (hnode : node ∈ ((passes.foldl Graph.after built).heldAt id).flatMap Node.nodes)
    (hnonempty : node.site.start < node.site.stop) :
    (passes.foldl Graph.after built).blockContaining? node.site = some id := by
  have htree : ∀ {other : BlockId} {part : Node},
      (passes.foldl Graph.after built).Reachable other →
      part ∈ (passes.foldl Graph.after built).heldAt other → part ∈ program.root.nodes := by
    intro other part hother hpart
    refine program.root.nodesAll_sublist.subset (mem_held_graph h hroles passes ?_)
    exact List.mem_flatMap.mpr ⟨part, Graph.mem_held hother hpart, part.mem_nodes_self⟩
  have hnodup : ((passes.foldl Graph.after built).held.flatMap Node.nodes).Nodup := by
    obtain ⟨nodes, hperm, hsublist⟩ := held_graph h hroles passes
    exact hperm.nodup ((List.Nodup.of_map _ program.nodup_sites).sublist hsublist)
  obtain ⟨part, hpart, hbelow⟩ := List.mem_flatMap.mp hnode
  have hnestedPart : part.WellNested := fun inner hinner =>
    hnested inner ((Node.sublist_of_mem_nodes (htree hid hpart)).subset hinner)
  have hcovers := hnestedPart.covers node hbelow
  refine Graph.blockContaining?_of_unique hid ⟨part, hpart, hcovers⟩ ?_
  rintro other hother ⟨part', hpart', hcovers'⟩
  rcases hnested.apart part (htree hid hpart) part' (htree hother hpart') with
    hinner | hinner | hapart
  · exact Graph.eq_of_mem_heldAt hnodup hother hid
      (List.mem_flatMap.mpr ⟨part', hpart', hinner⟩)
      (List.mem_flatMap.mpr ⟨part, hpart, part.mem_nodes_self⟩)
  · exact Graph.eq_of_mem_heldAt hnodup hother hid
      (List.mem_flatMap.mpr ⟨part', hpart', part'.mem_nodes_self⟩)
      (List.mem_flatMap.mpr ⟨part, hpart, hinner⟩)
  · -- the first character of the node is in both
    have hfirst : node.site.Contains node.site.start := ⟨Nat.le_refl _, hnonempty⟩
    exact absurd (hfirst.mono hcovers')
      (Site.apart_iff.mp hapart _ (hfirst.mono hcovers))

theorem mem_tree_of_code? (h : program.graph = .ok built) (hroles : program.SingleRoles)
    (passes : List Pass) {id : BlockId} {code : Code}
    (hid : (passes.foldl Graph.after built).Reachable id)
    (hcode : (passes.foldl Graph.after built).code? id = some code) :
    ∀ node ∈ code.held.flatMap Node.nodes, node ∈ Node.nodesAll program.root.children := by
  intro node hnode
  obtain ⟨part, hpart, hnode⟩ := List.mem_flatMap.mp hnode
  rw [← Graph.heldAt_of_code? hcode] at hpart
  exact mem_held_graph h hroles passes
    (List.mem_flatMap.mpr ⟨part, Graph.mem_held hid hpart, hnode⟩)

/-- The block of a read is the one that reads it. -/
theorem blockContaining?_read (h : program.graph = .ok built) (hroles : program.SingleRoles)
    (hnested : program.root.WellNested) (passes : List Pass) {id : BlockId} {site : Site}
    (hid : (passes.foldl Graph.after built).Reachable id)
    (hread : .read site ∈ (passes.foldl Graph.after built).actionsAt id) :
    (passes.foldl Graph.after built).blockContaining? site = some id := by
  obtain ⟨code, hcode⟩ := Graph.code?_of_lt hid.lt
  have htree := mem_tree_of_code? h hroles passes hid hcode
  rw [Graph.actionsAt_of_code? hcode] at hread
  have hreads := Code.readSites_actions fun node hnode => hroles node (htree node hnode)
  obtain ⟨node, hnode, rfl⟩ := List.mem_map.mp (hreads.subset (mem_readSites.mpr hread))
  have hnests := hnested node (program.root.nodesAll_sublist.subset (htree node hnode))
  rw [← Graph.heldAt_of_code? hcode] at hnode
  exact blockContaining?_eq h hroles hnested passes hid hnode
    (hnests.nonempty (Code.isVariable_of_read program hread))

/-- An assignment has a character, for its target has one. -/
theorem nonempty_of_ofNode? (hnested : program.root.WellNested) {node : Node}
    (hnode : node ∈ program.root.nodes) {assignment : Assignment}
    (h : Assignment.ofNode? node = some assignment) : node.site.start < node.site.stop := by
  have htarget : ∃ target ∈ node.nodes, target.kind = .identifier := by
    have hfield : ∀ {field : Field} {child : Node}, node.field? field = some child →
        child.nodes <+ node.nodes := fun hchild =>
      (Node.sublist_of_mem (List.mem_of_find?_eq_some hchild)).trans node.nodesAll_sublist
    have hinner : ∀ {field : Field} {write kind : WriteKind} {target : Node},
        (node.field? field).map (fun child => (write, child.unparenthesized)) =
          some (kind, target) → target ∈ node.nodes := by
      intro field write kind target hsome
      obtain ⟨child, hchild, heq⟩ := Option.map_eq_some_iff.mp hsome
      obtain ⟨-, rfl⟩ := Prod.mk.inj heq
      exact (hfield hchild).subset (child.unparenthesized_sublist.subset (Node.mem_nodes_self _))
    rw [Assignment.ofNode?] at h
    split at h
    · rename_i kind target htarget
      split at h
      · rename_i hvariable
        refine ⟨target, ?_, hvariable⟩
        rw [Assignment.target?] at htarget
        split at htarget
        · split at htarget
          · rename_i hname
            cases htarget
            exact (hfield hname).subset target.mem_nodes_self
          · cases htarget
        · exact hinner htarget
        · exact hinner htarget
        · exact hinner htarget
        · cases htarget
      · cases h
    · cases h
  obtain ⟨target, hmem, hkind⟩ := htarget
  have hsub := (Node.sublist_of_mem_nodes hnode).subset
  have hvariable : target.site.isVariable = true := by
    rw [Site.isVariable, show target.site.kind = .identifier from hkind]
    rfl
  have hwide := (hnested target (hsub hmem)).nonempty hvariable
  have hcovers := Site.covers_iff.mp
    (Node.WellNested.covers (fun inner hinner => hnested inner (hsub hinner)) target hmem)
  exact Nat.lt_of_le_of_lt hcovers.1 (Nat.lt_of_lt_of_le hwide hcovers.2)

/-- The block of an assignment is the one that makes it. -/
theorem blockContaining?_write (h : program.graph = .ok built) (hroles : program.SingleRoles)
    (hnested : program.root.WellNested) (passes : List Pass) {id : BlockId}
    {assignment : Assignment} (hid : (passes.foldl Graph.after built).Reachable id)
    (hwrite : .write assignment ∈ (passes.foldl Graph.after built).actionsAt id) :
    (passes.foldl Graph.after built).blockContaining? assignment.site = some id := by
  obtain ⟨code, hcode⟩ := Graph.code?_of_lt hid.lt
  have htree := mem_tree_of_code? h hroles passes hid hcode
  rw [Graph.actionsAt_of_code? hcode] at hwrite
  obtain ⟨node, hnode, hmakes⟩ :=
    Code.write_of_actions (fun node hnode => hroles node (htree node hnode)) hwrite
  have hmem := program.root.nodesAll_sublist.subset (htree node hnode)
  rw [← Graph.heldAt_of_code? hcode] at hnode
  rw [Assignment.site_of_ofNode? hmakes]
  exact blockContaining?_eq h hroles hnested passes hid hnode
    (nonempty_of_ofNode? hnested hmem hmakes)

end Program

/-! ## The notes of a run -/

/-- What is noted, also by a run that is cut short, is read by a reachable block, and what it may
depend on is assigned by reachable blocks. -/
theorem Flow.exists_of_mem_reads_run {problem : FlowProblem} (hproper : problem.Proper)
    {maxVisits : Nat} {site : Site} {assignments : List Assignment}
    (h : (site, assignments) ∈
      (run problem maxVisits [(problem.graph.entry, [])] start).reads) :
    (∃ id, problem.graph.Reachable id ∧ .read site ∈ problem.graph.actionsAt id) ∧
      ∀ assignment ∈ assignments, ∃ id, problem.graph.Reachable id ∧
        .write assignment ∈ problem.graph.actionsAt id := by
  obtain ⟨queue, last, hinvariant, hreads⟩ := exists_reads_run problem maxVisits
    (P := Invariant problem) (fun _ _ _ _ h hcovers => h.skip hcovers)
    (fun _ _ _ _ h => h.visit hproper) _ _ (invariant_start hproper)
  rw [hreads] at h
  obtain ⟨id, known, before, after, hknown, hactions, rfl⟩ := (hinvariant.noted _ _).mp h
  obtain ⟨hid, harrives⟩ := hinvariant.recorded id known hknown
  refine ⟨⟨id, hid, hactions ▸ List.mem_append_right _ List.mem_cons_self⟩, ?_⟩
  intro assignment hassignment
  rcases Definitions.mem_after.mp (Definitions.mem_reaching.mp hassignment) with
    ⟨-, early, late, hsplit, -⟩ | ⟨hmem, -⟩
  · -- it is made in the same block
    refine ⟨id, hid, ?_⟩
    rw [hactions, hsplit]
    exact List.mem_append_left _ (List.mem_append_right _ List.mem_cons_self)
  · obtain ⟨passed, hpath, -, early, late, hsplit, -⟩ := harrives _ assignment hmem
    have hwrite : .write assignment ∈ problem.graph.actionsAlong passed := by
      rw [hsplit]
      exact List.mem_append_right _ List.mem_cons_self
    obtain ⟨passed', other, hpath', hwrite⟩ := Graph.mem_actionsAlong hpath hwrite
    exact ⟨other, (Graph.reachable_iff_path hproper.wired).mpr ⟨passed', hpath'⟩, hwrite⟩

/-! ## The edges of the diagram -/

/-- The number of a block in a diagram. -/
def Graph.number (graph : Graph) (id : BlockId) : Nat :=
  graph.order.idxOf id + 1

/-- The ends of the edges for dependencies. -/
def Diagram.dependsPairs (diagram : Diagram) : List (Nat × Nat) :=
  (diagram.edges.filter fun edge => edge.label = .depends).map fun edge =>
    (edge.source, edge.target)

namespace Diagram

variable {program : Program} {graph : Graph} {dependencies : Option Dependencies}

/-- Everything an edge is drawn for, with the blocks at its ends. -/
def drawn (graph : Graph) (dependencies : Option Dependencies) :
    List (BlockId × BlockId × EdgeLabel) :=
  graph.order.flatMap (controlEdges graph) ++ dependsEdges graph dependencies

/-- The edges of a diagram are what is drawn, with the ends numbered. -/
theorem map_edges_ofGraph {α : Type} (f : Nat → Nat → EdgeLabel → α) :
    ((ofGraph program graph dependencies).edges.map fun edge =>
        f edge.source edge.target edge.label) =
      (drawn graph dependencies).map fun edge =>
        f (graph.number edge.1) (graph.number edge.2.1) edge.2.2 := by
  have hfst := List.zipIdx_map_fst (graph.order.length + 1) (drawn graph dependencies)
  conv_rhs => rw [← hfst]
  rw [ofGraph, List.map_map, List.map_map]
  rfl

/-- The same for the edges with some of the labels. -/
theorem map_filter_edges_ofGraph {α : Type} (keep : EdgeLabel → Bool)
    (f : Nat → Nat → EdgeLabel → α) :
    (((ofGraph program graph dependencies).edges.filter fun edge => keep edge.label).map
        fun edge => f edge.source edge.target edge.label) =
      ((drawn graph dependencies).filter fun line => keep line.2.2).map fun line =>
        f (graph.number line.1) (graph.number line.2.1) line.2.2 := by
  have hedges : ((ofGraph program graph dependencies).edges.map fun edge =>
      (edge.source, edge.target, edge.label)) = _ :=
    map_edges_ofGraph fun source target label => (source, target, label)
  have hkept := congrArg (fun lines => (lines.filter fun line => keep line.2.2).map
    fun line => f line.1 line.2.1 line.2.2) hedges
  simp only [List.filter_map, List.map_map] at hkept
  exact hkept

theorem label_of_mem_controlEdges {line : BlockId × BlockId × EdgeLabel}
    (h : line ∈ graph.order.flatMap (controlEdges graph)) : line.2.2 ≠ .depends := by
  obtain ⟨id, -, hline⟩ := List.mem_flatMap.mp h
  obtain ⟨transition, -, rfl⟩ := List.mem_map.mp hline
  simp

theorem label_of_mem_dependsEdges {line : BlockId × BlockId × EdgeLabel}
    (h : line ∈ dependsEdges graph dependencies) : line.2.2 = .depends := by
  cases dependencies with
  | none => cases h
  | some dependencies =>
      obtain ⟨pair, -, rfl⟩ := List.mem_map.mp h
      rfl

/-- What is drawn for the graph alone is every edge of a reachable block. -/
theorem filter_drawn_control (graph : Graph) (dependencies : Option Dependencies) :
    (drawn graph dependencies).filter (fun line => line.2.2 ≠ EdgeLabel.depends) =
      graph.order.flatMap (controlEdges graph) := by
  rw [drawn, List.filter_append, List.filter_eq_self.mpr, List.filter_eq_nil_iff.mpr,
    List.append_nil]
  · intro line hline
    simp [label_of_mem_dependsEdges hline]
  · intro line hline
    simp [label_of_mem_controlEdges hline]

/-- The rest is drawn for the dependencies. -/
theorem filter_drawn_depends (graph : Graph) (dependencies : Option Dependencies) :
    (drawn graph dependencies).filter (fun line => line.2.2 = EdgeLabel.depends) =
      dependsEdges graph dependencies := by
  rw [drawn, List.filter_append, List.filter_eq_nil_iff.mpr, List.filter_eq_self.mpr,
    List.nil_append]
  · intro line hline
    simp [label_of_mem_dependsEdges hline]
  · intro line hline
    simp [label_of_mem_controlEdges hline]

theorem dependsPairs_ofGraph (program : Program) (graph : Graph) (dependencies : Dependencies) :
    (ofGraph program graph (some dependencies)).dependsPairs =
      (graph.dependencyPairs dependencies).map fun pair =>
        (graph.number pair.1, graph.number pair.2) := by
  rw [dependsPairs, map_filter_edges_ofGraph (fun label => decide (label = .depends))
    fun source target _ => (source, target), filter_drawn_depends, dependsEdges, List.map_map]
  rfl

end Diagram

theorem Graph.nodup_dependencyPairs (graph : Graph) (dependencies : Dependencies) :
    (graph.dependencyPairs dependencies).Nodup := by
  have hordered : Sorted.Ordered pairBefore (graph.dependencyPairs dependencies) := by
    refine Sorted.ordered_ofList ?_ ?_ _
    · intro a b c hab hbc
      simp only [pairBefore, Bool.or_eq_true, Bool.and_eq_true, decide_eq_true_eq] at hab hbc ⊢
      lia
    · intro a b hab
      rw [← Bool.not_eq_true]
      simp only [pairBefore, Bool.or_eq_true, Bool.and_eq_true, decide_eq_true_eq] at hab ⊢
      lia
  exact hordered.imp fun hpair => hpair.1

/-- Reads and assignments are found where they are made, and all that is noted is made
somewhere. -/
structure Graph.Locates (graph : Graph) (dependencies : Dependencies) : Prop where
  reader : ∀ id site, graph.ListsRead id site → graph.blockContaining? site = some id
  writer : ∀ id assignment, graph.Performs id assignment →
    graph.blockContaining? assignment.site = some id
  noted : ∀ site reaching, (site, reaching) ∈ dependencies.reads →
    (∃ id, graph.ListsRead id site) ∧
      ∀ assignment ∈ reaching, ∃ id, graph.Performs id assignment

namespace Graph.Locates

variable {graph : Graph} {dependencies : Dependencies}

/-- One block lists a read that is noted. -/
theorem exists_reader (h : graph.Locates dependencies) {site : Site} {reaching : List Assignment}
    (hnote : (site, reaching) ∈ dependencies.reads) :
    ∃ reader, graph.blockContaining? site = some reader ∧
      ∀ id, graph.ListsRead id site ↔ id = reader := by
  obtain ⟨⟨reader, hreader⟩, -⟩ := h.noted site reaching hnote
  have hfound := h.reader reader site hreader
  refine ⟨reader, hfound, fun id => ⟨fun hid => ?_, fun heq => heq ▸ hreader⟩⟩
  exact Option.some.inj ((h.reader id site hid).symm.trans hfound)

/-- One block makes an assignment that may reach it. -/
theorem exists_writer (h : graph.Locates dependencies) {site : Site} {reaching : List Assignment}
    (hnote : (site, reaching) ∈ dependencies.reads) {assignment : Assignment}
    (hassignment : assignment ∈ reaching) :
    ∃ writer, graph.blockContaining? assignment.site = some writer ∧
      ∀ id, graph.Performs id assignment ↔ id = writer := by
  obtain ⟨writer, hwriter⟩ := (h.noted site reaching hnote).2 assignment hassignment
  have hfound := h.writer writer assignment hwriter
  refine ⟨writer, hfound, fun id => ⟨fun hid => ?_, fun heq => heq ▸ hwriter⟩⟩
  exact Option.some.inj ((h.writer id assignment hid).symm.trans hfound)

/-- So a pair of blocks is one that reads and one that assigns. -/
theorem mem_dependencyPairs (h : graph.Locates dependencies) {reader writer : BlockId} :
    (reader, writer) ∈ graph.dependencyPairs dependencies ↔
      ∃ site reaching assignment, (site, reaching) ∈ dependencies.reads ∧ assignment ∈ reaching ∧
        graph.ListsRead reader site ∧ graph.Performs writer assignment := by
  rw [dependencyPairs, Sorted.mem_ofList, List.mem_flatMap]
  constructor
  · rintro ⟨⟨site, reaching⟩, hnote, hpair⟩
    obtain ⟨source, hsource, hlists⟩ := h.exists_reader hnote
    rw [pairsOf, hsource] at hpair
    obtain ⟨target, htarget, heq⟩ := List.mem_map.mp hpair
    cases heq
    obtain ⟨assignment, hassignment, hfound⟩ := List.mem_filterMap.mp htarget
    obtain ⟨block, hblock, hperforms⟩ := h.exists_writer hnote hassignment
    cases hblock.symm.trans hfound
    exact ⟨site, reaching, assignment, hnote, hassignment, (hlists _).mpr rfl,
      (hperforms _).mpr rfl⟩
  · rintro ⟨site, reaching, assignment, hnote, hassignment, hread, hwrite⟩
    refine ⟨(site, reaching), hnote, ?_⟩
    rw [pairsOf, h.reader reader site hread]
    refine List.mem_map.mpr ⟨writer, List.mem_filterMap.mpr ⟨assignment, hassignment, ?_⟩, rfl⟩
    exact h.writer writer assignment hwrite

end Graph.Locates

/-- Different reachable blocks have different numbers. -/
theorem Graph.number_inj {graph : Graph} {id other : BlockId} (hid : graph.Reachable id)
    (h : graph.number id = graph.number other) : id = other :=
  (List.idxOf_inj (mem_order.mpr hid)).mp (Nat.add_right_cancel h)

namespace Program

variable {program : Program}

/-- In a well nested tree, blocks are found by the extents of what they read and assign. -/
theorem locates_analyze {config : Config} {analysis : Analysis}
    (hnested : program.root.WellNested) (hroles : program.SingleRoles)
    (h : program.analyze config = .ok analysis) :
    analysis.graph.Locates analysis.dependencies := by
  obtain ⟨built, hbuilt, found, hfound, rfl⟩ := analyze_eq_ok.mp h
  have hwired := ((wellFormed_graph hbuilt).foldlM_apply config.simplify.passes).2.toWired
  obtain ⟨effects, heffects, hrun⟩ := exists_of_bind_eq_ok hfound
  cases hrun
  have hproper : FlowProblem.Proper ⟨program, _, program.names, effects⟩ :=
    ⟨hwired, fun id hid => Graph.lookup_effects hwired heffects hid,
      readsApart hbuilt hroles config.simplify.passes⟩
  refine ⟨?_, ?_, ?_⟩
  · intro id site hlists
    obtain ⟨hid, hread⟩ := (Graph.listsRead_iff heffects).mp hlists
    exact blockContaining?_read hbuilt hroles hnested config.simplify.passes hid hread
  · intro id assignment hperforms
    obtain ⟨hid, hwrite⟩ := (Graph.performs_iff heffects).mp hperforms
    exact blockContaining?_write hbuilt hroles hnested config.simplify.passes hid hwrite
  · intro site reaching hnote
    obtain ⟨⟨id, hread⟩, hassigned⟩ := Flow.exists_of_mem_reads_run hproper hnote
    refine ⟨⟨id, (Graph.listsRead_iff heffects).mpr hread⟩, ?_⟩
    intro assignment hassignment
    obtain ⟨other, hwrite⟩ := hassigned assignment hassignment
    exact ⟨other, (Graph.performs_iff heffects).mpr hwrite⟩

/-- The edges for dependencies are exact, also if the analysis was cut short: every read that is
noted is listed by one reachable block, every assignment that may reach it is made by one, both
are found from the extents alone, and the edges lead, each once, from the blocks that read to the
blocks that assign. -/
theorem depends_edges_exact {config : Config} {analysis : Analysis}
    (hnested : program.root.WellNested) (hroles : program.SingleRoles)
    (h : program.analyze config = .ok analysis) :
    (∀ site reaching, (site, reaching) ∈ analysis.dependencies.reads →
      (∃ reader, analysis.graph.blockContaining? site = some reader ∧
        ∀ id, analysis.graph.ListsRead id site ↔ id = reader) ∧
      ∀ assignment ∈ reaching,
        ∃ writer, analysis.graph.blockContaining? assignment.site = some writer ∧
          ∀ id, analysis.graph.Performs id assignment ↔ id = writer) ∧
    (Diagram.ofGraph program analysis.graph (some analysis.dependencies)).dependsPairs.Nodup ∧
    ∀ pair,
      pair ∈ (Diagram.ofGraph program analysis.graph (some analysis.dependencies)).dependsPairs ↔
        ∃ site reaching assignment reader writer,
          (site, reaching) ∈ analysis.dependencies.reads ∧ assignment ∈ reaching ∧
          analysis.graph.ListsRead reader site ∧ analysis.graph.Performs writer assignment ∧
          pair = (analysis.graph.number reader, analysis.graph.number writer) := by
  have hlocates := locates_analyze hnested hroles h
  rw [Diagram.dependsPairs_ofGraph]
  refine ⟨?_, ?_, ?_⟩
  · intro site reaching hnote
    exact ⟨hlocates.exists_reader hnote, fun _ => hlocates.exists_writer hnote⟩
  · refine (Graph.nodup_dependencyPairs _ _).map_on ?_
    intro pair hpair other _ heq
    obtain ⟨hsource, htarget⟩ := Graph.reachable_of_mem_dependencyPairs hpair
    obtain ⟨hfirst, hsecond⟩ := Prod.mk.inj heq
    exact Prod.ext (Graph.number_inj hsource hfirst) (Graph.number_inj htarget hsecond)
  · intro pair
    rw [List.mem_map]
    constructor
    · rintro ⟨⟨reader, writer⟩, hpair, rfl⟩
      obtain ⟨site, reaching, assignment, hnote, hassignment, hread, hwrite⟩ :=
        hlocates.mem_dependencyPairs.mp hpair
      exact ⟨site, reaching, assignment, reader, writer, hnote, hassignment, hread, hwrite, rfl⟩
    · rintro ⟨site, reaching, assignment, reader, writer, hnote, hassignment, hread, hwrite, rfl⟩
      exact ⟨(reader, writer), hlocates.mem_dependencyPairs.mpr
        ⟨site, reaching, assignment, hnote, hassignment, hread, hwrite⟩, rfl⟩

/-- The loop of the sample reads what the declaration before it and its own assignment write. -/
theorem depends_edges_exact_sample : ∃ analysis, sample.root.WellNested ∧ sample.SingleRoles ∧
    sample.analyze {} = .ok analysis ∧
    (Diagram.ofGraph sample analysis.graph (some analysis.dependencies)).dependsPairs =
      [(3, 1), (3, 3)] ∧
    ∃ site reaching assignment reader writer, (site, reaching) ∈ analysis.dependencies.reads ∧
      assignment ∈ reaching ∧ analysis.graph.ListsRead reader site ∧
      analysis.graph.Performs writer assignment ∧
      (3, 1) = (analysis.graph.number reader, analysis.graph.number writer) := by
  have hrun : (do
      let analysis ← sample.analyze {}
      return (Diagram.ofGraph sample analysis.graph (some analysis.dependencies)).dependsPairs) =
        .ok [(3, 1), (3, 3)] := by
    cbv
  obtain ⟨analysis, h, hpairs⟩ := exists_of_bind_eq_ok hrun
  have hnested : sample.root.WellNested := by decide
  have hedges := Except.ok.inj hpairs
  refine ⟨analysis, hnested, singleRoles_sample, h, hedges, ?_⟩
  refine ((depends_edges_exact hnested singleRoles_sample h).2.2 (3, 1)).mp ?_
  rw [hedges]
  exact List.mem_cons_self

end Program

end DefUse
