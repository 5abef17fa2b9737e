/-
# `Proofs.Tree.Broken` — where the source is broken first

A parser marks the nodes that are broken, and the nodes above them.  The search for the
first broken node (`Node.firstBroken?`) goes by these marks: it passes over a node without
one, and it looks no further below a broken node.

What the search does is given by two rules (`Node.Finds`).  It stops at a marked node that
is broken or has no marked child, and from any other it goes on to the first marked child.
That it follows the rules takes the one induction over trees (`Node.exists_finds`); what is
known of its answer is read off the rules.

* If the marks are true, the answer is the first broken node in pre-order (`Finds.first`).
  What comes before it are the nodes above it, which are not broken, and the children that
  were passed over, with all that is below them.  These have no mark, so nothing in them is
  broken.
* Whatever the marks are, the nodes above the answer are marked and not broken
  (`Finds.exposed`).  The answer itself need not be broken then.

The answer is a site.  In a tree with distinct numbers it stands for one node, and there is
one way down to that node (`Lineage.unique`).
-/
import Mathlib.Data.List.Pairwise
import DefUse.Program
import DefUse.Proofs.Tree.Nodes

namespace DefUse

open DefUse.Tree

namespace Tree.Node

/-- Is the node marked: is it, or something below it, said to be broken? -/
def isMarked (node : Node) : Bool :=
  node.site.hasError

/-- Is the node itself an error or missing? -/
def isBroken (node : Node) : Bool :=
  node.site.isError || node.site.isMissing

/-- The marks are true: a node has one if and only if it or a node below it is broken. -/
def TrulyMarked (root : Node) : Prop :=
  ∀ node ∈ root.nodes, node.isMarked = true ↔ ∃ below ∈ node.nodes, below.isBroken = true

instance (root : Node) : Decidable root.TrulyMarked :=
  inferInstanceAs (Decidable (∀ node ∈ root.nodes,
    node.isMarked = true ↔ ∃ below ∈ node.nodes, below.isBroken = true))

/-- From `root` one comes down to `found` through the nodes `above`, each the parent of the
next: the proper ancestors of `found`, the outermost first. -/
inductive Lineage : Node → List Node → Node → Prop
  | self (node : Node) : Lineage node [] node
  | down {node child found : Node} {above : List Node} : child ∈ node.children →
      Lineage child above found → Lineage node (node :: above) found

/-- The search goes down from a node through the nodes `above` and stops at `found`. -/
inductive Finds : Node → List Node → Node → Prop
  | here {node : Node} : node.isMarked = true →
      (node.isBroken = true ∨ ∀ child ∈ node.children, child.isMarked = false) →
      Finds node [] node
  | down {node child found : Node} {before after above : List Node} : node.isMarked = true →
      node.isBroken = false → node.children = before ++ child :: after →
      (∀ other ∈ before, other.isMarked = false) → Finds child above found →
      Finds node (node :: above) found

variable {root node child other found : Node} {above above' nodes : List Node}

theorem nodes_eq (node : Node) : node.nodes = node :: nodesAll node.children := by
  cases node
  rfl

/-! ## The search follows the rules -/

theorem firstBroken?_of_not_marked (h : node.isMarked = false) : node.firstBroken? = none := by
  obtain ⟨site, children⟩ := node
  have hmark : site.hasError = false := h
  simp [firstBroken?, hmark]

theorem firstBroken?_of_broken (hmarked : node.isMarked = true) (hbroken : node.isBroken = true) :
    node.firstBroken? = some node.site := by
  obtain ⟨site, children⟩ := node
  have hmark : site.hasError = true := hmarked
  have hself : (site.isError || site.isMissing) = true := hbroken
  rw [firstBroken?, if_pos hmark, if_pos hself, site_mk]

theorem firstBroken?_of_not_broken (hmarked : node.isMarked = true)
    (hwhole : node.isBroken = false) :
    node.firstBroken? = some ((firstBrokenIn node.children).getD node.site) := by
  obtain ⟨site, children⟩ := node
  have hmark : site.hasError = true := hmarked
  have hself : ¬ (site.isError || site.isMissing) = true := by
    rw [Bool.not_eq_true]
    exact hwhole
  rw [firstBroken?, if_pos hmark, if_neg hself, site_mk, children_mk]

theorem isSome_firstBroken? (hmarked : node.isMarked = true) : node.firstBroken?.isSome := by
  cases hbroken : node.isBroken with
  | true => rw [firstBroken?_of_broken hmarked hbroken, Option.isSome_some]
  | false => rw [firstBroken?_of_not_broken hmarked hbroken, Option.isSome_some]

/-- Among several nodes the first marked one answers. -/
theorem firstBrokenIn_eq (nodes : List Node) :
    firstBrokenIn nodes = (nodes.find? isMarked).bind firstBroken? := by
  induction nodes with
  | nil => rfl
  | cons node rest ih =>
      rw [firstBrokenIn, List.find?_cons]
      cases hmarked : node.isMarked with
      | false =>
          rw [firstBroken?_of_not_marked hmarked]
          exact ih
      | true =>
          obtain ⟨answer, hanswer⟩ := Option.isSome_iff_exists.mp (isSome_firstBroken? hmarked)
          rw [hanswer, Option.bind_some, hanswer]

/-- A marked tree has an answer, and the search comes to it by the rules. -/
theorem exists_finds : ∀ {root : Node}, root.isMarked = true →
    ∃ above found, root.Finds above found ∧ root.firstBroken? = some found.site
  | mk site children, hmarked => by
      cases hbroken : (mk site children).isBroken with
      | true =>
          exact ⟨[], _, .here hmarked (.inl hbroken), firstBroken?_of_broken hmarked hbroken⟩
      | false =>
          rw [firstBroken?_of_not_broken hmarked hbroken, firstBrokenIn_eq, children_mk]
          cases hfirst : children.find? isMarked with
          | none =>
              have halone : ∀ child ∈ children, child.isMarked = false := by
                simpa using List.find?_eq_none.mp hfirst
              exact ⟨[], _, .here hmarked (.inr halone), rfl⟩
          | some child =>
              obtain ⟨hchild, before, after, hchildren, hpassed⟩ :=
                List.find?_eq_some_iff_append.mp hfirst
              -- the call below is on a smaller tree
              have hmem : child ∈ children := List.mem_of_find?_eq_some hfirst
              obtain ⟨above, found, hfinds, hanswer⟩ := exists_finds hchild
              refine ⟨mk site children :: above, found, ?_, ?_⟩
              · exact .down hmarked hbroken hchildren (by simpa using hpassed) hfinds
              · rw [Option.bind_some, hanswer, Option.getD_some]

/-! ## The nodes above the answer -/

theorem Finds.lineage (h : root.Finds above found) : root.Lineage above found := by
  induction h with
  | here => exact .self _
  | down _ _ hchildren _ _ ih => exact .down (by simp [hchildren]) ih

theorem Finds.exposed (h : root.Finds above found) :
    ∀ node ∈ above, node.isMarked = true ∧ node.isBroken = false := by
  induction h with
  | here => exact nofun
  | down hmarked hwhole _ _ _ ih => exact List.forall_mem_cons.mpr ⟨⟨hmarked, hwhole⟩, ih⟩

theorem Lineage.mem_nodes (h : root.Lineage above found) : found ∈ root.nodes := by
  induction h with
  | self node => exact node.mem_nodes_self
  | down hchild _ ih => exact nodes_subset hchild ih

/-- Two children with a node in common are one. -/
theorem eq_of_mem_nodes (hnodup : (nodesAll nodes).Nodup) (hchild : child ∈ nodes)
    (hother : other ∈ nodes) (hnode : node ∈ child.nodes) (hnode' : node ∈ other.nodes) :
    child = other := by
  by_contra hne
  rw [nodesAll_eq, List.nodup_flatMap] at hnodup
  have : Std.Symm (Function.onFun List.Disjoint Node.nodes) := ⟨fun _ _ => List.disjoint_symm⟩
  exact hnodup.2.forall hchild hother hne hnode hnode'

/-- A node is not below itself. -/
theorem not_lineage_self (hnodup : node.nodes.Nodup) (hchild : child ∈ node.children) :
    ¬ child.Lineage above node := by
  intro hline
  rw [nodes_eq, List.nodup_cons] at hnodup
  exact hnodup.1 ((sublist_of_mem hchild).subset hline.mem_nodes)

/-- If no node is in the tree twice, there is one way down to each. -/
theorem Lineage.unique (hnodup : root.nodes.Nodup) (h : root.Lineage above found)
    (h' : root.Lineage above' found) : above = above' := by
  induction h generalizing above' with
  | self node =>
      cases h' with
      | self => rfl
      | down hchild hline => exact absurd hline (not_lineage_self hnodup hchild)
  | @down node child found above hchild hline ih =>
      cases h' with
      | self => exact absurd hline (not_lineage_self hnodup hchild)
      | @down _ other _ above' hother hline' =>
          have hbelow := hnodup.sublist node.nodesAll_sublist
          obtain rfl := eq_of_mem_nodes hbelow hchild hother hline.mem_nodes hline'.mem_nodes
          rw [ih (hbelow.sublist (sublist_of_mem hchild)) hline']

/-- In a tree with distinct numbers, the nodes above the answer are those that the search came
through. -/
theorem exposed_of_lineage (hdistinct : root.ids.Nodup) (hline : root.Lineage above found)
    (hanswer : root.firstBroken? = some found.site) :
    ∀ node ∈ above, node.isMarked = true ∧ node.isBroken = false := by
  cases hmarked : root.isMarked with
  | false =>
      rw [firstBroken?_of_not_marked hmarked] at hanswer
      cases hanswer
  | true =>
      obtain ⟨above', found', hfinds, hanswer'⟩ := exists_finds hmarked
      have hsite : found.site = found'.site := Option.some.inj (hanswer.symm.trans hanswer')
      have hline' := hfinds.lineage
      obtain rfl : found = found' :=
        eq_of_site hdistinct hline.mem_nodes hline'.mem_nodes (congrArg Site.id hsite)
      have hnodup : root.nodes.Nodup := by
        rw [ids, sites_eq, List.map_map] at hdistinct
        exact hdistinct.of_map
      rw [hline.unique hnodup hline']
      exact hfinds.exposed

/-! ## True marks -/

theorem TrulyMarked.of_mem_children (h : root.TrulyMarked) (hchild : child ∈ root.children) :
    child.TrulyMarked := by
  intro node hnode
  exact h node (nodes_subset hchild hnode)

theorem TrulyMarked.not_broken (h : root.TrulyMarked) (hunmarked : root.isMarked = false) :
    ∀ node ∈ root.nodes, ¬ node.isBroken = true := by
  intro node hnode hbroken
  have hmarked : root.isMarked = true := (h root root.mem_nodes_self).mpr ⟨node, hnode, hbroken⟩
  rw [hunmarked] at hmarked
  cases hmarked

theorem TrulyMarked.not_broken_below (h : root.TrulyMarked) (hnodes : nodes ⊆ root.children)
    (hunmarked : ∀ child ∈ nodes, child.isMarked = false) :
    ∀ node ∈ nodesAll nodes, ¬ node.isBroken = true := by
  intro node hnode
  rw [nodesAll_eq, List.mem_flatMap] at hnode
  obtain ⟨child, hchild, hnode⟩ := hnode
  exact (h.of_mem_children (hnodes hchild)).not_broken (hunmarked child hchild) node hnode

/-- A true mark that no child shares is the node's own. -/
theorem TrulyMarked.isBroken_of_alone (h : root.TrulyMarked) (hmarked : root.isMarked = true)
    (halone : ∀ child ∈ root.children, child.isMarked = false) : root.isBroken = true := by
  obtain ⟨node, hnode, hbroken⟩ := (h root root.mem_nodes_self).mp hmarked
  rw [nodes_eq] at hnode
  rcases List.mem_cons.mp hnode with rfl | hbelow
  · exact hbroken
  · exact absurd hbroken (h.not_broken_below (List.Subset.refl _) halone node hbelow)

/-- By true marks, the search stops at the first broken node in pre-order. -/
theorem Finds.first (h : root.Finds above found) (htruly : root.TrulyMarked) :
    root.nodes.find? isBroken = some found := by
  induction h with
  | @here node hmarked hstop =>
      have hbroken : node.isBroken = true := hstop.elim id (htruly.isBroken_of_alone hmarked)
      rw [nodes_eq, List.find?_cons_of_pos hbroken]
  | @down node child found before after above _ hwhole hchildren hpassed _ ih =>
      have hchild : child ∈ node.children := by simp [hchildren]
      have hbefore : before ⊆ node.children := by simp [hchildren]
      have hnodes : node.nodes = node :: (nodesAll before ++ (child.nodes ++ nodesAll after)) := by
        simp only [nodes_eq, hchildren, nodesAll_eq, List.flatMap_append, List.flatMap_cons]
      have hnone : (nodesAll before).find? isBroken = none :=
        List.find?_eq_none.mpr (htruly.not_broken_below hbefore hpassed)
      have hfirst := ih (htruly.of_mem_children hchild)
      rw [hnodes, List.find?_cons_of_neg (by simp [hwhole]), List.find?_append, hnone,
        Option.none_or, List.find?_append, hfirst, Option.some_or]

theorem TrulyMarked.firstBroken?_eq (h : root.TrulyMarked) :
    root.firstBroken? = (root.nodes.find? isBroken).map site := by
  cases hmarked : root.isMarked with
  | false =>
      have hnone := List.find?_eq_none.mpr (h.not_broken hmarked)
      rw [firstBroken?_of_not_marked hmarked, hnone, Option.map_none]
  | true =>
      obtain ⟨above, found, hfinds, hanswer⟩ := exists_finds hmarked
      rw [hanswer, hfinds.first h, Option.map_some]

end Tree.Node

namespace Program

open Tree.Node

theorem parse_eq_brokenSource_iff {source : String} {dialect : Dialect} {root : Node}
    {line column : Nat} :
    parse source dialect (some root) = .error (.brokenSource line column) ↔
      ∃ site, root.firstBroken? = some site ∧ line = site.row + 1 ∧ column = site.column + 1 := by
  rw [parse]
  cases root.firstBroken? with
  | none => simp
  | some site => simp [eq_comm]

/-- If the marks are true, a tree is refused as broken if and only if a node of it is broken, and
the position reported is where the first such node in pre-order begins.  Whatever the marks are,
the search has an answer if the root is marked, and the nodes above the answer are marked and not
broken.  If the nodes are told apart by their numbers, this goes for every way down to the
answer. -/
theorem parse_broken_first (source : String) (dialect : Dialect) (root : Node) :
    (root.TrulyMarked →
      ((∃ line column, parse source dialect (some root) = .error (.brokenSource line column)) ↔
        ∃ node ∈ root.nodes, node.isBroken = true) ∧
      ∀ line column, parse source dialect (some root) = .error (.brokenSource line column) →
        ∃ first, root.nodes.find? isBroken = some first ∧
          line = first.site.row + 1 ∧ column = first.site.column + 1) ∧
    (root.isMarked = true →
      ∃ above found, root.Lineage above found ∧ root.firstBroken? = some found.site ∧
        ∀ node ∈ above, node.isMarked = true ∧ node.isBroken = false) ∧
    (root.ids.Nodup →
      ∀ above found, root.Lineage above found → root.firstBroken? = some found.site →
        ∀ node ∈ above, node.isMarked = true ∧ node.isBroken = false) := by
  refine ⟨?_, ?_, ?_⟩
  · intro htruly
    simp only [parse_eq_brokenSource_iff, htruly.firstBroken?_eq, Option.map_eq_some_iff]
    refine ⟨⟨?_, ?_⟩, ?_⟩
    · rintro ⟨-, -, -, ⟨first, hfirst, -⟩, -, -⟩
      exact ⟨first, List.mem_of_find?_eq_some hfirst, List.find?_some hfirst⟩
    · rintro ⟨node, hnode, hbroken⟩
      obtain ⟨first, hfirst⟩ := Option.isSome_iff_exists.mp
        (List.find?_isSome.mpr ⟨node, hnode, hbroken⟩)
      exact ⟨_, _, first.site, ⟨first, hfirst, rfl⟩, rfl, rfl⟩
    · rintro line column ⟨-, ⟨first, hfirst, rfl⟩, hline, hcolumn⟩
      exact ⟨first, hfirst, hline, hcolumn⟩
  · intro hmarked
    obtain ⟨above, found, hfinds, hanswer⟩ := exists_finds hmarked
    exact ⟨above, found, hfinds.lineage, hanswer, hfinds.exposed⟩
  · intro hdistinct above found hline hanswer
    exact exposed_of_lineage hdistinct hline hanswer

/-! ## Examples -/

/-- A site on the first line where nothing is marked or broken. -/
def soundSite (kind : Kind) (start stop : Nat) : Site :=
  ⟨0, kind, true, false, false, false, start, stop, 0, start, []⟩

/-- A declaration without its semicolon, and after it an error inside an error. -/
def unfinishedTree : Node :=
  .mk { soundSite (.other "program") 0 18 with hasError := true }
    [.mk { soundSite .lexicalDeclaration 0 9 with hasError := true }
      [.mk (soundSite .variableDeclarator 4 9) [],
        .mk { soundSite (.other ";") 9 9 with
          named := false, hasError := true, isMissing := true } []],
      .mk { soundSite .lexicalDeclaration 10 18 with hasError := true }
        [.mk { soundSite (.other "ERROR") 17 18 with hasError := true, isError := true }
          [.mk { soundSite (.other "ERROR") 17 18 with hasError := true, isError := true } []]]]

/-- An error without a mark, and a mark without an error. -/
def mismarkedTree : Node :=
  (Node.mk { soundSite (.other "program") 0 6 with hasError := true }
    [.mk { soundSite (.other "ERROR") 0 3 with isError := true } [],
      .mk { soundSite .expressionStatement 4 6 with hasError := true }
        [.mk (soundSite .identifier 4 5) []]]).number 0

/-- By true marks the missing semicolon is reported: the declaration that lacks it comes before it
and is not broken, the errors come after it.  By marks that are not true the search passes over
an error, but the node above its answer is as it should be. -/
theorem parse_broken_first_unfinished :
    unfinishedTree.TrulyMarked ∧
      parse "let a = 1 let b = " .javascript (some unfinishedTree) =
        .error (.brokenSource 1 10) ∧
      ¬ mismarkedTree.TrulyMarked ∧ mismarkedTree.isMarked = true ∧ mismarkedTree.ids.Nodup ∧
      (∃ above found, mismarkedTree.Lineage above found ∧
        mismarkedTree.firstBroken? = some found.site ∧
        ∀ node ∈ above, node.isMarked = true ∧ node.isBroken = false) ∧
      ∃ found ∈ mismarkedTree.children, mismarkedTree.firstBroken? = some found.site ∧
        mismarkedTree.isBroken = false := by
  have htruly : unfinishedTree.TrulyMarked := by decide
  have hparts := (parse_broken_first "let a = 1 let b = " .javascript unfinishedTree).1 htruly
  obtain ⟨line, column, hparse⟩ := hparts.1.mpr (by decide)
  obtain ⟨first, hfirst, rfl, rfl⟩ := hparts.2 line column hparse
  obtain ⟨hrow, hcolumn⟩ : first.site.row = 0 ∧ first.site.column = 9 := by
    cases Option.some.inj hfirst
    exact ⟨rfl, rfl⟩
  rw [hrow, hcolumn] at hparse
  obtain ⟨-, hanswers, hexposed⟩ := parse_broken_first "" .javascript mismarkedTree
  have hdistinct : mismarkedTree.ids.Nodup := nodup_ids_number 0 _
  have hfound : ∃ found ∈ mismarkedTree.children,
      mismarkedTree.firstBroken? = some found.site := by decide
  obtain ⟨found, hchild, hanswer⟩ := hfound
  have hline : mismarkedTree.Lineage [mismarkedTree] found := .down hchild (.self found)
  have hself := hexposed hdistinct _ found hline hanswer mismarkedTree List.mem_cons_self
  exact ⟨htruly, hparse, by decide, rfl, hdistinct, hanswers rfl, found, hchild, hanswer, hself.2⟩

end Program

end DefUse
