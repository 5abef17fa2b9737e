/-
# `Proofs.Dependency.Origin` — the reads and writes of a graph are nodes of the tree

What a block reads are nodes of the parts that it holds, and what it writes is written
by nodes of them.  Since the blocks of a program's graph hold parts of one tree that do
not overlap (`Program.held_graph`), no read is made at two places, whatever passes
were run (`Program.readsApart`).
-/
import DefUse.Proofs.Dependency.Flow
import DefUse.Proofs.Effect.Within
import DefUse.Proofs.Graph.Held

namespace DefUse

open DefUse.Tree
open scoped List

/-! ## Reads -/

theorem readSites_append (first second : List Action) :
    readSites (first ++ second) = readSites first ++ readSites second :=
  List.filterMap_append

theorem readSites_flatMap {α : Type} (f : α → List Action) (items : List α) :
    readSites (items.flatMap f) = items.flatMap fun item => readSites (f item) := by
  induction items with
  | nil => rfl
  | cons item rest ih => rw [List.flatMap_cons, readSites_append, ih, List.flatMap_cons]

theorem readSites_map_read (sites : List Site) : readSites (sites.map .read) = sites := by
  induction sites with
  | nil => rfl
  | cons site rest ih => exact congrArg (site :: ·) ih

theorem Effect.readSites_actions (effect : Effect) : readSites effect.actions = effect.reads := by
  rw [Effect.actions, readSites_append, readSites_map_read]
  cases effect.write with
  | none => exact List.append_nil _
  | some assignment => exact List.append_nil _

theorem readSites_statementActions {statement : Node}
    (hroles : ∀ node ∈ statement.nodes, node.site.SingleRole) :
    readSites (statementActions statement) <+~ statement.nodes.map Node.site := by
  rw [statementActions]
  split
  · rename_i steps hsteps
    have hbelow : ∀ other ∈ Node.nodesAll statement.children, other.site.SingleRole := by
      intro other hother
      exact hroles other (statement.nodesAll_sublist.subset hother)
    rw [readSites_flatMap]
    simp only [Effect.readSites_actions]
    exact (effects_within hbelow hsteps).reads
  · exact List.nil_subperm

theorem readSites_expressionActions (expression : Node) :
    readSites (expressionActions expression) <+~ expression.nodes.map Node.site := by
  rw [expressionActions]
  split
  · rename_i sites hsites
    rw [readSites_map_read]
    exact (reads_sublist_nodes hsites).subperm
  · exact List.nil_subperm

/-- Reading part by part. -/
theorem subperm_flatMap_nodes {nodes : List Node} {f : Node → List Site}
    (h : ∀ node ∈ nodes, f node <+~ node.nodes.map Node.site) :
    nodes.flatMap f <+~ (nodes.flatMap Node.nodes).map Node.site := by
  induction nodes with
  | nil => exact List.nil_subperm
  | cons node rest ih =>
      rw [List.flatMap_cons, List.flatMap_cons, List.map_append]
      refine (h node List.mem_cons_self).append (ih ?_)
      intro other hother
      exact h other (List.mem_cons_of_mem _ hother)

/-- A block reads nodes of what it holds, none twice. -/
theorem Code.readSites_actions {code : Code}
    (hroles : ∀ node ∈ code.held.flatMap Node.nodes, node.site.SingleRole) :
    readSites code.actions <+~ (code.held.flatMap Node.nodes).map Node.site := by
  rw [Code.actions, readSites_append, readSites_flatMap, readSites_flatMap, Code.held,
    List.flatMap_append, List.map_append]
  refine List.Subperm.append ?_ ?_
  · refine subperm_flatMap_nodes ?_
    intro statement hstatement
    refine readSites_statementActions ?_
    intro node hnode
    refine hroles node (List.mem_flatMap.mpr ⟨statement, ?_, hnode⟩)
    exact List.mem_append_left _ hstatement
  · refine subperm_flatMap_nodes ?_
    intro expression _
    exact readSites_expressionActions expression

namespace Graph

variable {graph : Graph}

theorem mem_held {id : BlockId} {node : Node} (hid : graph.Reachable id)
    (h : node ∈ graph.heldAt id) : node ∈ graph.held :=
  List.mem_flatMap.mpr ⟨id, mem_order.mpr hid, h⟩

/-- The reads of all reachable blocks are nodes of what these hold, none twice. -/
theorem readSites_subperm (hroles : ∀ node ∈ graph.held.flatMap Node.nodes, node.site.SingleRole) :
    (graph.order.flatMap fun id => readSites (graph.actionsAt id)) <+~
      (graph.held.flatMap Node.nodes).map Node.site := by
  have hblock : ∀ id ∈ graph.order, readSites (graph.actionsAt id) <+~
      ((graph.heldAt id).flatMap Node.nodes).map Node.site := by
    intro id hid
    obtain ⟨code, hcode⟩ := code?_of_lt (mem_order.mp hid).lt
    rw [actionsAt_of_code? hcode, heldAt_of_code? hcode]
    refine Code.readSites_actions ?_
    intro node hnode
    obtain ⟨part, hpart, hnode⟩ := List.mem_flatMap.mp hnode
    rw [← heldAt_of_code? hcode] at hpart
    exact hroles node (List.mem_flatMap.mpr ⟨part, mem_held (mem_order.mp hid) hpart, hnode⟩)
  rw [held]
  generalize graph.order = ids at hblock
  induction ids with
  | nil => exact List.nil_subperm
  | cons id rest ih =>
      rw [List.flatMap_cons, List.flatMap_cons, List.flatMap_append, List.map_append]
      refine (hblock id List.mem_cons_self).append (ih ?_)
      intro other hother
      exact hblock other (List.mem_cons_of_mem _ hother)

/-- If what is held does not overlap, every read is made at one place. -/
theorem readsApart_of_nodup
    (hroles : ∀ node ∈ graph.held.flatMap Node.nodes, node.site.SingleRole)
    (hnodup : ((graph.held.flatMap Node.nodes).map Node.site).Nodup) : graph.ReadsApart := by
  obtain ⟨reads, hperm, hsublist⟩ := readSites_subperm hroles
  have hall := hperm.nodup (hnodup.sublist hsublist)
  obtain ⟨honce, hapart⟩ := List.nodup_flatMap.mp hall
  constructor
  · intro id hid
    exact honce id (mem_order.mpr hid)
  · intro id other site hid hother hread hread'
    by_contra hne
    have : Std.Symm (Function.onFun List.Disjoint fun id => readSites (graph.actionsAt id)) :=
      ⟨fun _ _ h _ hfirst hsecond => h hsecond hfirst⟩
    have hdisjoint := hapart.forall (mem_order.mpr hid) (mem_order.mpr hother) hne
    exact hdisjoint (mem_readSites.mpr hread) (mem_readSites.mpr hread')

end Graph

/-! ## Writes -/

theorem mem_statementActions_write {statement : Node} {assignment : Assignment}
    (hroles : ∀ node ∈ statement.nodes, node.site.SingleRole)
    (h : .write assignment ∈ statementActions statement) :
    ∃ node ∈ statement.nodes, Assignment.ofNode? node = some assignment := by
  rw [statementActions] at h
  split at h
  · rename_i steps hsteps
    have hbelow : ∀ other ∈ Node.nodesAll statement.children, other.site.SingleRole := by
      intro other hother
      exact hroles other (statement.nodesAll_sublist.subset hother)
    obtain ⟨step, hstep, hwrite⟩ := List.mem_flatMap.mp h
    refine (effects_within hbelow hsteps).writes step hstep assignment ?_
    simpa [Effect.actions] using hwrite
  · cases h

theorem not_mem_expressionActions_write (expression : Node) (assignment : Assignment) :
    .write assignment ∉ expressionActions expression := by
  rw [expressionActions]
  split
  · simp
  · exact List.not_mem_nil

/-- What a block writes is written by a node of what it holds. -/
theorem Code.write_of_actions {code : Code} {assignment : Assignment}
    (hroles : ∀ node ∈ code.held.flatMap Node.nodes, node.site.SingleRole)
    (h : .write assignment ∈ code.actions) :
    ∃ node ∈ code.held.flatMap Node.nodes, Assignment.ofNode? node = some assignment := by
  rcases List.mem_append.mp h with h | h
  · obtain ⟨statement, hstatement, hwrite⟩ := List.mem_flatMap.mp h
    have hheld : ∀ node ∈ statement.nodes, node ∈ code.held.flatMap Node.nodes := by
      intro node hnode
      exact List.mem_flatMap.mpr ⟨statement, List.mem_append_left _ hstatement, hnode⟩
    obtain ⟨node, hnode, hmakes⟩ := mem_statementActions_write
      (fun node hnode => hroles node (hheld node hnode)) hwrite
    exact ⟨node, hheld node hnode, hmakes⟩
  · obtain ⟨expression, -, hwrite⟩ := List.mem_flatMap.mp h
    exact absurd hwrite (not_mem_expressionActions_write expression assignment)

theorem Assignment.site_of_ofNode? {node : Node} {assignment : Assignment}
    (h : ofNode? node = some assignment) : assignment.site = node.site := by
  rw [ofNode?] at h
  split at h
  · split at h
    · cases h
      rfl
    · cases h
  · cases h

/-! ## Programs -/

namespace Program

variable {program : Program} {built : Graph}

theorem mem_held_graph (h : program.graph = .ok built) (hroles : program.SingleRoles)
    (passes : List Pass) {node : Node}
    (hnode : node ∈ (passes.foldl Graph.after built).held.flatMap Node.nodes) :
    node ∈ Node.nodesAll program.root.children :=
  (held_graph h hroles passes).subset hnode

/-- No read is made at two places, whatever passes were run. -/
theorem readsApart (h : program.graph = .ok built) (hroles : program.SingleRoles)
    (passes : List Pass) : (passes.foldl Graph.after built).ReadsApart := by
  refine Graph.readsApart_of_nodup ?_ ?_
  · intro node hnode
    exact hroles node (mem_held_graph h hroles passes hnode)
  · obtain ⟨sites, hperm, hsublist⟩ := Node.subperm_map (held_graph h hroles passes) Node.site
    exact hperm.nodup (program.nodup_sites.sublist hsublist)

/-- A reachable block holds nodes of the tree. -/
theorem held_of_code? (h : program.graph = .ok built) (hroles : program.SingleRoles) {id : BlockId}
    {code : Code} (hid : built.Reachable id) (hcode : built.code? id = some code) :
    ∀ node ∈ code.held.flatMap Node.nodes, node ∈ Node.nodesAll program.root.children := by
  intro node hnode
  obtain ⟨part, hpart, hnode⟩ := List.mem_flatMap.mp hnode
  rw [← Graph.heldAt_of_code? hcode] at hpart
  exact mem_held_graph h hroles []
    (List.mem_flatMap.mpr ⟨part, Graph.mem_held hid hpart, hnode⟩)

/-- What is read is a node of the tree. -/
theorem exists_of_read (h : program.graph = .ok built) (hroles : program.SingleRoles)
    {id : BlockId} {site : Site} (hid : built.Reachable id)
    (hread : .read site ∈ built.actionsAt id) : ∃ node ∈ program.root.nodes, node.site = site := by
  obtain ⟨code, hcode⟩ := Graph.code?_of_lt hid.lt
  have hheld := held_of_code? h hroles hid hcode
  rw [Graph.actionsAt_of_code? hcode, ← mem_readSites] at hread
  have hreads := Code.readSites_actions (fun node hnode => hroles node (hheld node hnode))
  obtain ⟨node, hnode, hsite⟩ := List.mem_map.mp (hreads.subset hread)
  exact ⟨node, program.root.nodesAll_sublist.subset (hheld node hnode), hsite⟩

/-- What is written is written by a node of the tree. -/
theorem exists_of_write (h : program.graph = .ok built) (hroles : program.SingleRoles)
    {id : BlockId} {assignment : Assignment} (hid : built.Reachable id)
    (hwrite : .write assignment ∈ built.actionsAt id) :
    ∃ node ∈ program.root.nodes, Assignment.ofNode? node = some assignment := by
  obtain ⟨code, hcode⟩ := Graph.code?_of_lt hid.lt
  have hheld := held_of_code? h hroles hid hcode
  rw [Graph.actionsAt_of_code? hcode] at hwrite
  obtain ⟨node, hnode, hmakes⟩ :=
    Code.write_of_actions (fun node hnode => hroles node (hheld node hnode)) hwrite
  exact ⟨node, program.root.nodesAll_sublist.subset (hheld node hnode), hmakes⟩

end Program

end DefUse
