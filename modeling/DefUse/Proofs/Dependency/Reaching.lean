/-
# `Proofs.Dependency.Reaching` — the flow analysis finds the reaching definitions

The dependencies that the iteration finds along a graph of a program, after any passes,
are those of the paths of this graph (`Program.flow_reaching`): its reads are the reads
of the reachable blocks, and under each read stand the assignments that reach it.

Both the reads and the assignments under a read are in document order, which leaves no
choice: the sites of a program have different numbers, so two maps with the same reads
and the same assignments are equal (`Program.reachingMap_unique`).
-/
import Mathlib
import DefUse.Proofs.Dependency.Origin

namespace DefUse

open DefUse.Tree
open scoped List

/-! ## Maps in document order -/

/-- Lists in order with the same elements are equal, if the order tells the elements apart. -/
theorem Sorted.eq_of_mem_iff {α : Type} {before : α → α → Bool} {xs ys : List α}
    (hxs : Ordered before xs) (hys : Ordered before ys) (hmem : ∀ x, x ∈ xs ↔ x ∈ ys)
    (htotal : ∀ x ∈ xs, ∀ y ∈ xs, x ≠ y → before x y = true ∨ before y x = true) : xs = ys := by
  have hnodup : ∀ {zs : List α}, Ordered before zs → zs.Nodup := by
    intro zs hzs
    exact hzs.imp fun h => h.1
  have hperm : xs ~ ys := (List.perm_ext_iff_of_nodup (hnodup hxs) (hnodup hys)).mpr hmem
  refine List.Perm.eq_of_pairwise ?_ hxs hys hperm
  rintro x y hx hy ⟨hne, hlater⟩ ⟨-, hearlier⟩
  rcases htotal x hx y ((hmem y).mpr hy) hne with h | h
  · rw [h] at hearlier
    cases hearlier
  · rw [h] at hlater
    cases hlater

/-- A name that no entry gives is given to no site. -/
theorem Names.get?_ne {names : Names} {name : String}
    (h : ∀ entry ∈ names.entries, entry.2 ≠ name) (site : Site) : names.get? site ≠ some name := by
  intro hname
  rw [Names.get?, List.lookup_eq_some_iff] at hname
  obtain ⟨front, back, hsplit, -⟩ := hname
  refine h (site, name) ?_ rfl
  rw [hsplit]
  exact List.mem_append_right _ List.mem_cons_self

namespace Program

variable {program : Program} {built graph : Graph} {names : Names}

section Unique

variable {edge : BlockId → BlockId → Prop} {map other : ReadMap}

/-- Sites of the tree are told apart by document order. -/
theorem before_or_before {node other : Node} (hnode : node ∈ program.root.nodes)
    (hother : other ∈ program.root.nodes) (hne : node ≠ other) :
    node.site.before other.site = true ∨ other.site.before node.site = true := by
  have hid : node.site.id ≠ other.site.id := by
    intro hid
    exact hne (Node.eq_of_site program.distinct hnode hother hid)
  cases hbefore : other.site.before node.site with
  | true => exact .inr rfl
  | false => exact .inl (Site.before_of_not_before hid hbefore)

/-- The same assignments under a read, in the same order. -/
theorem assignments_unique (h : program.graph = .ok built) (hroles : program.SingleRoles)
    (hedge : ∀ id next, edge id next → built.Edge id next)
    (hmap : built.ReachingMap edge names map) (hother : built.ReachingMap edge names other)
    {site : Site} {assignments assignments' : List Assignment}
    (hnote : (site, assignments) ∈ map) (hnote' : (site, assignments') ∈ other) :
    assignments = assignments' := by
  have hwired := (wellFormed_graph h).toWired
  refine Sorted.eq_of_mem_iff (hmap.arranged _ _ hnote) (hother.arranged _ _ hnote') ?_ ?_
  · intro assignment
    rw [hmap.reaches _ _ hnote, hother.reaches _ _ hnote']
  · have hmakes : ∀ assignment ∈ assignments, ∃ node ∈ program.root.nodes,
        Assignment.ofNode? node = some assignment := by
      intro assignment hassignment
      obtain ⟨passed, id, hpath, hwrite⟩ := ((hmap.reaches _ _ hnote _).mp hassignment).written
      exact exists_of_write h hroles
        ((Graph.reachable_iff_path hwired).mpr ⟨passed, hpath.mono hedge⟩) hwrite
    intro first hfirst second hsecond hne
    obtain ⟨node, hnode, hmakesFirst⟩ := hmakes first hfirst
    obtain ⟨node', hnode', hmakesSecond⟩ := hmakes second hsecond
    rw [Assignment.site_of_ofNode? hmakesFirst, Assignment.site_of_ofNode? hmakesSecond]
    refine before_or_before hnode hnode' ?_
    rintro rfl
    exact hne (Option.some.inj (hmakesFirst.symm.trans hmakesSecond))

/-- There is one map of what reaches the reads of a program. -/
theorem reachingMap_unique (h : program.graph = .ok built) (hroles : program.SingleRoles)
    (hedge : ∀ id next, edge id next → built.Edge id next)
    (hmap : built.ReachingMap edge names map) (hother : built.ReachingMap edge names other) :
    map = other := by
  have hwired := (wellFormed_graph h).toWired
  have hsub : ∀ {map other : ReadMap}, built.ReachingMap edge names map →
      built.ReachingMap edge names other → ∀ entry, entry ∈ map → entry ∈ other := by
    rintro map other hmap hother ⟨site, assignments⟩ hnote
    have hkey : site ∈ other.map Prod.fst :=
      (hother.reads site).mpr ((hmap.reads site).mp (List.mem_map.mpr ⟨_, hnote, rfl⟩))
    obtain ⟨⟨site', assignments'⟩, hnote', rfl⟩ := List.mem_map.mp hkey
    rw [assignments_unique h hroles hedge hmap hother hnote hnote']
    exact hnote'
  have hordered : ∀ {map : ReadMap}, map.Ordered →
      Sorted.Ordered (fun first second => first.1.before second.1) map := by
    intro map hmap
    refine hmap.imp ?_
    rintro first second ⟨hne, hlater⟩
    exact ⟨fun heq => hne (congrArg Prod.fst heq), hlater⟩
  refine Sorted.eq_of_mem_iff (hordered hmap.ordered) (hordered hother.ordered)
    (fun entry => ⟨hsub hmap hother entry, hsub hother hmap entry⟩) ?_
  intro first hfirst second hsecond hne
  have hreads : ∀ entry ∈ map, ∃ node ∈ program.root.nodes, node.site = entry.1 := by
    intro entry hentry
    obtain ⟨passed, id, hpath, hread⟩ :=
      (hmap.reads entry.1).mp (List.mem_map.mpr ⟨entry, hentry, rfl⟩)
    exact exists_of_read h hroles
      ((Graph.reachable_iff_path hwired).mpr ⟨passed, hpath.mono hedge⟩) hread
  obtain ⟨node, hnode, hsite⟩ := hreads first hfirst
  obtain ⟨node', hnode', hsite'⟩ := hreads second hsecond
  rw [← hsite, ← hsite']
  refine before_or_before hnode hnode' ?_
  rintro rfl
  exact hne (List.inj_on_of_nodup_map hmap.ordered.nodup hfirst hsecond (hsite.symm.trans hsite'))

end Unique

/-! ## The analysis -/

/-- Along a graph of a program, after any passes, the analysis finds the reads of the reachable
blocks and for each of them the assignments that reach it on the paths of the graph. -/
theorem flow_reaching {passes : List Pass} {maxVisits : Nat} {found : Dependencies}
    (hbuilt : program.graph = .ok built) (hpasses : passes.foldlM Graph.apply built = .ok graph)
    (hroles : program.SingleRoles) (hnames : ∀ site, names.get? site ≠ some unknownName)
    (hflow : program.flow graph names maxVisits = .ok found) (hend : found.truncated = false) :
    (found.reads.map Prod.fst).Nodup ∧
      (∀ site, site ∈ found.reads.map Prod.fst ↔
        ∃ id, graph.Reachable id ∧ .read site ∈ graph.actionsAt id) ∧
      (∀ site assignments, (site, assignments) ∈ found.reads → ∀ assignment,
        assignment ∈ assignments ↔ graph.Reaches graph.Edge names assignment site) ∧
      ∀ site assignments, (site, assignments) ∈ found.reads → names.get? site = none →
        assignments = [] := by
  obtain ⟨hok, hgraph⟩ := (wellFormed_graph hbuilt).foldlM_apply passes
  cases hok.symm.trans hpasses
  have hmap := flow_spec hgraph.toWired (readsApart hbuilt hroles passes) hnames hflow hend
  refine ⟨hmap.ordered.nodup, ?_, hmap.reaches, ?_⟩
  · intro site
    simp only [hmap.reads, Graph.reachable_iff_path hgraph.toWired]
    constructor
    · rintro ⟨passed, id, hpath, hread⟩
      exact ⟨id, ⟨passed, hpath⟩, hread⟩
    · rintro ⟨id, ⟨passed, hpath⟩, hread⟩
      exact ⟨passed, id, hpath, hread⟩
  · intro site assignments hnote hnone
    refine List.eq_nil_iff_forall_not_mem.mpr ?_
    intro assignment hassignment
    obtain ⟨name, -, -, -, -, hname, -⟩ := (hmap.reaches _ _ hnote _).mp hassignment
    cases hnone.symm.trans hname

theorem singleRoles_sample : sample.SingleRoles := by
  decide

theorem names_sample (site : Site) : sample.names.get? site ≠ some unknownName := by
  have hentries : ∀ entry ∈ sample.names.entries, entry.2 ≠ unknownName := by decide
  exact Names.get?_ne hentries site

theorem flow_reaching_sample : ∃ built graph found, sample.graph = .ok built ∧
    [.emptyJumps, .mergeChains].foldlM Graph.apply built = .ok graph ∧
    sample.flow graph sample.names defaultMaxVisits = .ok found ∧ found.truncated = false ∧
    found.reads ≠ [] ∧
    ∀ site assignments, (site, assignments) ∈ found.reads → ∀ assignment,
      assignment ∈ assignments ↔ graph.Reaches graph.Edge sample.names assignment site := by
  have hrun : (do
      let built ← sample.graph
      let graph ← [Pass.emptyJumps, .mergeChains].foldlM Graph.apply built
      let found ← sample.flow graph sample.names defaultMaxVisits
      return (found.truncated, found.reads.isEmpty)) = .ok (false, false) := by
    cbv
  obtain ⟨built, hbuilt, hrun⟩ := exists_of_bind_eq_ok hrun
  obtain ⟨graph, hgraph, hrun⟩ := exists_of_bind_eq_ok hrun
  obtain ⟨found, hfound, hrun⟩ := exists_of_bind_eq_ok hrun
  have hend : found.truncated = false ∧ found.reads.isEmpty = false := by
    simpa [pure, Except.pure] using hrun
  refine ⟨built, graph, found, hbuilt, hgraph, hfound, hend.1, ?_, ?_⟩
  · simpa using hend.2
  · exact (flow_reaching hbuilt hgraph singleRoles_sample names_sample hfound hend.1).2.2.1

end Program

end DefUse
