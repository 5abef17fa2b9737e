/-
# `Proofs.Diagram.Mermaid` — the rows of a flowchart text

A flowchart text is read row by row, and a node's text ends at the next quote.  So the
text of a diagram should have one row for each node and each edge, and two quotes in
the row of a node.  Quotes in a node's text are escaped, and there are always two
(`DiagramNode.count_quote_mermaid`).  The body of a block is cut at its line feeds, and
labels have none (`Program.unbroken_passes`).  But the exit is put into the text as the
source has it: a returned expression or a condition that goes over several lines breaks
the row of its node (`Program.mermaid_broken`).

What can be said is how many rows there are then, and that nothing else breaks them
(`Program.mermaid_rows_iff`).
-/
import DefUse.Diagram.Mermaid
import DefUse.Proofs.Diagram.Picture
import DefUse.Proofs.Text.Rows

namespace DefUse

open DefUse.Tree

/-! ## The texts of nodes and edges -/

theorem Text.count_numeral {c : Char} (h : c.isDigit = false) (n : Nat) :
    count c (toString n) = 0 := by
  rw [count_eq_zero]
  intro hmem
  rw [isDigit_of_mem_numeral hmem] at h
  cases h

namespace DiagramNode

open DefUse.Text

theorem count_quote_escapeChar (c : Char) : count '"' (escapeChar c) = 0 := by
  rw [escapeChar]
  split
  · rfl
  · rename_i hne
    rw [count_eq_zero]
    simpa using Ne.symm hne

theorem count_break_escapeChar (c : Char) :
    count '\n' (escapeChar c) = if c = '\n' then 1 else 0 := by
  rw [escapeChar]
  by_cases hquote : c = '"'
  · subst hquote
    rfl
  · rw [if_neg hquote, count, String.toList_singleton, List.count_singleton]
    simp

theorem count_quote_text (node : DiagramNode) : count '"' node.text = 0 := by
  rw [text, count_join, sum_count_eq_zero, List.forall_mem_map]
  intro c _
  exact count_quote_escapeChar c

/-- Escaping leaves line feeds as they are. -/
theorem count_break_escaped (text : String) :
    count '\n' (String.join (text.toList.map escapeChar)) = count '\n' text := by
  rw [count_join, List.map_map, count]
  induction text.toList with
  | nil => rfl
  | cons c rest ih =>
      rw [List.map_cons, List.sum_cons, ih, List.count_cons]
      simp only [Function.comp_apply, count_break_escapeChar, beq_iff_eq]
      omega

/-- Line feeds come from the label and from the exit; the body has none left. -/
theorem count_break_text (node : DiagramNode) :
    count '\n' node.text = count '\n' node.label + count '\n' node.exit := by
  have hbody : ((lines node.body).map (count '\n')).sum = 0 :=
    sum_count_eq_zero.mpr fun _ => count_of_mem_lines
  have hbreak : count '\n' "<br/>" = 0 := rfl
  rw [text, count_break_escaped, List.append_assoc, List.singleton_append, count_intercalate,
    hbreak]
  simp [hbody]

/-- The quotes around the text of a node are the only ones in its declaration. -/
theorem count_quote_mermaid (node : DiagramNode) : count '"' node.mermaid = 2 := by
  have hnumeral : count '"' (toString node.id) = 0 := count_numeral (by decide) _
  rw [mermaid]
  split <;> simp only [count_append, hnumeral, count_quote_text] <;> rfl

theorem count_break_mermaid (node : DiagramNode) :
    count '\n' node.mermaid = count '\n' node.label + count '\n' node.exit := by
  have hnumeral : count '\n' (toString node.id) = 0 := count_numeral (by decide) _
  have hname : count '\n' "    N" = 0 := rfl
  have hdiamond : count '\n' "\x7b\"" = 0 ∧ count '\n' "\"\x7d" = 0 := ⟨rfl, rfl⟩
  have hbox : count '\n' "[\"" = 0 ∧ count '\n' "\"]" = 0 := ⟨rfl, rfl⟩
  rw [← count_break_text, mermaid]
  split <;> simp only [count_append, hnumeral, hname, hdiamond, hbox] <;> omega

end DiagramNode

open DefUse.Text

theorem DiagramEdge.count_break_mermaid (edge : DiagramEdge) : count '\n' edge.mermaid = 0 := by
  have hsource : count '\n' (toString edge.source) = 0 := count_numeral (by decide) _
  have htarget : count '\n' (toString edge.target) = 0 := count_numeral (by decide) _
  have harrow : count '\n' edge.label.arrow = 0 := by
    cases edge.label with
    | control kind => cases kind <;> rfl
    | depends => rfl
  simp only [mermaid, count_append, hsource, htarget, harrow]
  rfl

/-! ## The text of a diagram -/

/-- The lines of the text before they are put together. -/
def Diagram.mermaidLines (diagram : Diagram) : List String :=
  "flowchart TD" :: (diagram.nodes.map DiagramNode.mermaid ++
    diagram.edges.map DiagramEdge.mermaid)

namespace Diagram

theorem mermaidLines_ne_nil (diagram : Diagram) : diagram.mermaidLines ≠ [] :=
  List.cons_ne_nil _ _

theorem mermaid_eq (diagram : Diagram) :
    diagram.mermaid = "\n".intercalate diagram.mermaidLines := by
  rw [mermaid, mermaidLines, List.append_assoc]
  rfl

/-- Each line feed in the label or the exit of a node makes a row more. -/
theorem length_rows_mermaid (diagram : Diagram) :
    (rows diagram.mermaid).length = 1 + diagram.nodes.length + diagram.edges.length +
      (diagram.nodes.map fun node => count '\n' node.label + count '\n' node.exit).sum := by
  have hheading : count '\n' "flowchart TD" = 0 := rfl
  have hedges : (diagram.edges.map fun edge => count '\n' edge.mermaid).sum = 0 := by
    simp [DiagramEdge.count_break_mermaid]
  -- the heading and the edges are whole, so that what is left over comes from the nodes
  rw [mermaid_eq, length_rows_intercalate diagram.mermaidLines_ne_nil, mermaidLines]
  simp only [List.map_cons, List.map_append, List.map_map, List.sum_cons, List.sum_append,
    List.length_cons, List.length_append, List.length_map, hheading, Function.comp_def, hedges,
    DiagramNode.count_break_mermaid]
  omega

theorem rows_mermaid_iff (diagram : Diagram) :
    rows diagram.mermaid = diagram.mermaidLines ↔
      ∀ node ∈ diagram.nodes, count '\n' node.label + count '\n' node.exit = 0 := by
  have hheading : count '\n' "flowchart TD" = 0 := rfl
  rw [mermaid_eq, rows_intercalate_iff diagram.mermaidLines_ne_nil, mermaidLines]
  simp [hheading, DiagramEdge.count_break_mermaid, DiagramNode.count_break_mermaid, or_imp,
    forall_and]

end Diagram

/-! ## Labels -/

namespace Graph

/-- No label has a line feed. -/
def Unbroken (graph : Graph) : Prop :=
  ∀ id, count '\n' (graph.labelOf id) = 0

variable {graph : Graph}

theorem labelOf_of_ge {id : BlockId} (h : graph.blocks.size ≤ id) : graph.labelOf id = "" := by
  rw [labelOf, block?, Array.getElem?_eq_none h]

/-- The labels of pieces have a numeral after them, and other labels do not change. -/
theorem Unbroken.parted (h : graph.Unbroken) {cut : BlockId} {block : Block} {first : Node}
    {rest : List Node} (hblock : graph.block? cut = some block) :
    (graph.parted cut block first rest).Unbroken := by
  intro id
  by_cases hold : id < graph.blocks.size
  · rw [labelOf_parted_of_lt hblock hold]
    exact h id
  · -- a block of the chain, or none at all
    obtain ⟨i, rfl⟩ := Nat.exists_eq_add_of_le (Nat.le_of_not_lt hold)
    by_cases hchain : i < rest.length
    · have hlabel : count '\n' block.label = 0 := labelOf_of_block? hblock ▸ h cut
      have hmark : count '\n' "_" = 0 := rfl
      rw [labelOf_parted_chain hblock hchain, count_append, count_append, hlabel, hmark,
        count_numeral (by decide)]
    · rw [labelOf_of_ge]
      · rfl
      · rw [size_parted]
        omega

theorem kept_unbroken : Kept Unbroken where
  setParents := by
    intro graph h id
    rw [labelOf_setParents]
    exact h id
  turned := by
    intro graph gone next _ _ _ _ h id
    rw [labelOf_turned]
    exact h id
  joined := by
    intro graph head tail absorbed _ _ _ _ _ _ _ h id
    rw [labelOf_joined]
    exact h id
  parted := by
    intro graph cut block first second rest _ hblock _ h
    exact h.parted hblock

end Graph

/-- A graph fresh from a statement has words and numerals as labels. -/
theorem Statement.unbroken_graph (statement : Statement) : statement.graph.Unbroken := by
  have hlabels := (Draft.counted_add statement none Draft.start Draft.counted_start).labels
  intro id
  by_cases hid : id < statement.graph.blocks.size
  · obtain ⟨word, hword, hlabel⟩ := hlabels id hid
    have hfront : count '\n' word = 0 := count_eq_zero.mpr fun hmem => (hword _ hmem).2.2 rfl
    rw [Statement.graph, hlabel, count_append, hfront, count_numeral (by decide)]
  · rw [Graph.labelOf_of_ge (Nat.le_of_not_lt hid)]
    rfl

namespace Program

variable {program : Program} {built : Graph}

theorem unbroken_passes (h : program.graph = .ok built) (passes : List Pass) :
    (passes.foldl Graph.after built).Unbroken := by
  obtain ⟨statement, -, rfl⟩ := statement_of_graph h
  refine Graph.kept_unbroken.foldl_after passes ?_ statement.wired_graph.setParents ?_
  · intro _ graph _ hgraph id
    rw [Graph.labelOf_settleAll]
    exact hgraph id
  · exact Graph.kept_unbroken.setParents _ statement.unbroken_graph

/-- The line feeds in the expression that a node shows for the exit of its block: the one that is
returned, or the condition without its parentheses. -/
def breaks (program : Program) : Exit → Nat
  | .ret (some value) => count '\n' (program.text value.site)
  | .branch (.test node) _ _ => count '\n' (program.text node.unparenthesized.site)
  | _ => 0

theorem count_break_exitWord (program : Program) (exit : Exit) :
    count '\n' (Diagram.exitWord program exit) = program.breaks exit := by
  have hreturn : count '\n' "halt" = 0 ∧ count '\n' "return " = 0 := ⟨rfl, rfl⟩
  have hbranch : count '\n' "if (true)" = 0 ∧ count '\n' "if (" = 0 ∧ count '\n' ")" = 0 :=
    ⟨rfl, rfl, rfl⟩
  have hother : count '\n' "jump" = 0 ∧ count '\n' "unset" = 0 := ⟨rfl, rfl⟩
  cases exit with
  | ret value => cases value <;> simp [Diagram.exitWord, breaks, hreturn]
  | branch condition onTrue onFalse =>
      cases condition <;> simp [Diagram.exitWord, conditionText, breaks, hbranch]
  | jump next => simp [Diagram.exitWord, breaks, hother]
  | unset => simp [Diagram.exitWord, breaks, hother]

/-- The line feeds of nodes are those of the exits of their blocks. -/
theorem map_breaks_ofGraph (program : Program) {graph : Graph} (h : graph.Unbroken)
    (dependencies : Option Dependencies) :
    ((Diagram.ofGraph program graph dependencies).nodes.map fun node =>
        count '\n' node.label + count '\n' node.exit) =
      graph.reachable.map fun block => program.breaks block.exit := by
  conv_rhs => rw [← List.zipIdx_map_fst 1 graph.reachable]
  rw [Diagram.ofGraph, List.map_map, List.map_map]
  refine List.map_congr_left fun entry hentry => ?_
  obtain ⟨id, -, hblock⟩ := List.mem_filterMap.mp (List.fst_mem_of_mem_zipIdx hentry)
  have hlabel : count '\n' entry.1.label = 0 := Graph.labelOf_of_block? hblock ▸ h id
  show count '\n' entry.1.label + count '\n' (Diagram.exitWord program entry.1.exit) = _
  rw [hlabel, count_break_exitWord, Nat.zero_add]
  rfl

/-- Every node is declared with two quotes, and the text has one row more than nodes and edges
for its heading, and one more for each line feed in an expression that is returned or decides a
branch.  So there is a row to each node and each edge, and it is its line, if and only if no
such expression has a line feed. -/
theorem mermaid_rows_iff (h : program.graph = .ok built) (passes : List Pass)
    (dependencies : Option Dependencies) :
    ∃ graph, passes.foldlM Graph.apply built = .ok graph ∧
      (∀ node ∈ (Diagram.ofGraph program graph dependencies).nodes,
        count '"' node.mermaid = 2) ∧
      (rows (Diagram.ofGraph program graph dependencies).mermaid).length =
        1 + (Diagram.ofGraph program graph dependencies).nodes.length +
          (Diagram.ofGraph program graph dependencies).edges.length +
          (graph.reachable.map fun block => program.breaks block.exit).sum ∧
      (rows (Diagram.ofGraph program graph dependencies).mermaid =
          (Diagram.ofGraph program graph dependencies).mermaidLines ↔
        ∀ block ∈ graph.reachable, program.breaks block.exit = 0) := by
  obtain ⟨hok, -⟩ := (wellFormed_graph h).foldlM_apply passes
  have hbreaks := map_breaks_ofGraph program (unbroken_passes h passes) dependencies
  refine ⟨_, hok, fun node _ => node.count_quote_mermaid, ?_, ?_⟩
  · rw [Diagram.length_rows_mermaid, hbreaks]
  · rw [Diagram.rows_mermaid_iff, ← List.forall_mem_map (P := fun n => n = 0), hbreaks,
      List.forall_mem_map]

/-- A statement over two lines, with quotes in it. -/
def longCall : Program :=
  let tree := sampleNode (.other "program") 0 7 []
    [sampleNode .expressionStatement 0 7 []
      [sampleNode (.other "call_expression") 0 7 []
        [sampleNode .identifier 0 1 [] [],
          sampleNode (.other "arguments") 1 7 [] [sampleNode (.other "string") 3 6 [] []]]]]
  ⟨"a(\n\"b\")", .javascript, tree.number 0, tree.nodup_ids_number 0⟩

theorem mermaid_rows_iff_longCall : ∃ graph, longCall.graph = .ok graph ∧
    (Diagram.ofGraph longCall graph none).nodes.map DiagramNode.body = ["a(\n\"b\")"] ∧
    rows (Diagram.ofGraph longCall graph none).mermaid =
      (Diagram.ofGraph longCall graph none).mermaidLines := by
  have hrun : (do
      let graph ← longCall.graph
      return ((Diagram.ofGraph longCall graph none).nodes.map DiagramNode.body,
        graph.reachable.map fun block : Block => longCall.breaks block.exit)) =
        .ok (["a(\n\"b\")"], [0]) := by
    cbv
  obtain ⟨built, hbuilt, hrun⟩ := exists_of_bind_eq_ok hrun
  obtain ⟨hbodies, hbreaks⟩ := Prod.mk.inj (Except.ok.inj hrun)
  obtain ⟨graph, hgraph, -, -, hrows⟩ := mermaid_rows_iff hbuilt [] none
  cases hgraph
  refine ⟨built, hbuilt, hbodies, hrows.mpr ?_⟩
  intro block hblock
  have hmem : longCall.breaks block.exit ∈ [0] := hbreaks ▸ List.mem_map_of_mem hblock
  exact List.mem_singleton.mp hmem

/-- Something is returned that goes over three lines. -/
def longReturn : Program :=
  let tree := sampleNode (.other "program") 0 14 []
    [sampleNode .returnStatement 0 14 []
      [sampleNode .parenthesizedExpression 7 14 [] [sampleNode .identifier 11 12 [] []]]]
  ⟨"return (\n  a\n)", .javascript, tree.number 0, tree.nodup_ids_number 0⟩

/-- Its only node takes three rows. -/
theorem mermaid_broken : ∃ graph, longReturn.graph = .ok graph ∧
    (Diagram.ofGraph longReturn graph none).nodes.length = 1 ∧
    (Diagram.ofGraph longReturn graph none).edges.length = 0 ∧
    (rows (Diagram.ofGraph longReturn graph none).mermaid).length = 4 := by
  have hrun : (do
      let graph ← longReturn.graph
      let diagram := Diagram.ofGraph longReturn graph none
      return (diagram.nodes.length, diagram.edges.length,
        graph.reachable.map fun block : Block => longReturn.breaks block.exit)) =
        .ok (1, 0, [2]) := by
    cbv
  obtain ⟨graph, hgraph, hrun⟩ := exists_of_bind_eq_ok hrun
  simp only [pure, Except.pure, Except.ok.injEq, Prod.mk.injEq] at hrun
  obtain ⟨hnodes, hedges, hbreaks⟩ := hrun
  refine ⟨graph, hgraph, hnodes, hedges, ?_⟩
  have hunbroken : graph.Unbroken := unbroken_passes hgraph []
  rw [Diagram.length_rows_mermaid, map_breaks_ofGraph longReturn hunbroken, hnodes, hedges, hbreaks]
  rfl

end Program

end DefUse
