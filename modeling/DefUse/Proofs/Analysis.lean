/-
# `Proofs.Analysis` — dependencies do not depend on the shape of the graph

Passes change blocks, entries and the order of visits.  They keep the traces
(`Graph.traces_foldl_after`), and what is done on the paths of a graph is what is seen
in its traces (`Graph.counts_iff_traces`).  So the dependencies found after any choice
of passes are the reaching definitions of the graph as it was built
(`Program.analyze_reaching`).

One pass is a matter of content, not of shape: true branches.  Without it all edges of
the graph count.  With it the false side of a branch that is always taken does not.
In between stands one graph where both views meet: right after this pass no branch is
left on which they differ (`Graph.traces_settled`), and the passes after it keep the
traces under either view.

Whether an analysis succeeds is said by the same means: what counts then is what is
refused (`Tally.refusals`).
-/
import Mathlib
import DefUse.Analysis
import DefUse.Proofs.Dependency.Language
import DefUse.Proofs.Dependency.Reaching
import DefUse.Proofs.Walk.Pass

namespace DefUse

open DefUse.Tree

/-! ## Refusals -/

section Success

variable {ε α β : Type}

/-- The reason why a computation fails, if it does. -/
def refusal : Except ε α → List ε
  | .ok _ => []
  | .error reason => [reason]

theorem refusal_eq_nil {x : Except ε α} : refusal x = [] ↔ ∃ a, x = .ok a := by
  cases x with
  | ok a => exact ⟨fun _ => ⟨a, rfl⟩, fun _ => rfl⟩
  | error reason =>
      constructor
      · intro h
        cases h
      · rintro ⟨a, h⟩
        cases h

end Success

/-- What is refused. -/
def Tally.refusals : Tally AnalysisError :=
  ⟨fun statement => refusal (effects statement), fun expression => refusal (reads expression)⟩

/-- A block has effects if nothing in it is refused. -/
theorem Block.exists_effects_iff {block : Block} :
    (∃ found, block.effects = .ok found) ↔ Tally.refusals.ofCode block.code = [] := by
  have hexit : (∃ sites, readsOf? block.exit.expression? = .ok sites) ↔
      Tally.refusals.ofExit block.exit = [] := by
    rw [Tally.ofExit]
    cases block.exit.expression? with
    | none => exact ⟨fun _ => rfl, fun _ => ⟨[], rfl⟩⟩
    | some expression =>
        rw [Option.toList_some, List.flatMap_singleton]
        exact refusal_eq_nil.symm
  have hstatements : (∃ steps, block.statements.mapM DefUse.effects = .ok steps) ↔
      block.statements.flatMap Tally.refusals.statement = [] := by
    rw [exists_mapM_iff, List.flatMap_eq_nil_iff]
    simp only [← refusal_eq_nil]
    exact Iff.rfl
  rw [Tally.ofCode, List.append_eq_nil_iff, Block.code_statements, Block.code_exit, ← hexit,
    ← hstatements, Block.effects, exists_bind_iff]
  constructor
  · rintro ⟨steps, hsteps, h⟩
    obtain ⟨sites, hsites, -⟩ := exists_bind_iff.mp h
    exact ⟨⟨steps, hsteps⟩, sites, hsites⟩
  · rintro ⟨⟨steps, hsteps⟩, sites, hsites⟩
    exact ⟨steps, hsteps, exists_bind_iff.mpr ⟨sites, hsites, _, rfl⟩⟩

/-- The effects of a graph can be computed if nothing on its paths is refused. -/
theorem Graph.exists_effects_iff {graph : Graph} (hwired : graph.Wired) :
    (∃ found, graph.effects = .ok found) ↔
      ∀ items, graph.Counts .refusals graph.Edge items → items = [] := by
  have hblocks : (∃ found, graph.effects = .ok found) ↔
      ∀ id, graph.Reachable id → graph.tallyAt .refusals id = [] := by
    rw [Graph.effects, exists_mapM_iff]
    constructor
    · intro h id hid
      obtain ⟨block, hblock⟩ := block?_of_lt hid.lt
      have hentry := h block (List.mem_filterMap.mpr ⟨id, mem_order.mpr hid, hblock⟩)
      obtain ⟨found, hfound, -⟩ := exists_bind_iff.mp hentry
      rw [tallyAt_of_code? (code?_of_block? hblock)]
      exact Block.exists_effects_iff.mp ⟨found, hfound⟩
    · intro h block hblock
      obtain ⟨id, hid, hblock⟩ := List.mem_filterMap.mp hblock
      have hnone := h id (mem_order.mp hid)
      rw [tallyAt_of_code? (code?_of_block? hblock)] at hnone
      obtain ⟨found, hfound⟩ := Block.exists_effects_iff.mpr hnone
      exact exists_bind_iff.mpr ⟨found, hfound, _, rfl⟩
  rw [hblocks]
  constructor
  · rintro h items ⟨passed, id, hpath, hprefix⟩
    have hid : graph.Reachable id := (reachable_iff_path hwired).mpr ⟨passed, hpath⟩
    have halong : graph.tallyAlong .refusals passed = [] := by
      clear hprefix hid
      induction hpath with
      | start => rfl
      | @step passed id next hpath _ ih =>
          rw [tallyAlong_concat, ih, h id ((reachable_iff_path hwired).mpr ⟨passed, hpath⟩)]
          rfl
    rw [halong, h id hid] at hprefix
    exact List.prefix_nil.mp hprefix
  · intro h id hid
    obtain ⟨passed, hpath⟩ := (reachable_iff_path hwired).mp hid
    exact (List.append_eq_nil_iff.mp (h _ ⟨passed, id, hpath, List.prefix_rfl⟩)).2

/-! ## Passes -/

/-- How a choice of passes looks at branches. -/
def Simplification.view (choice : Simplification) : View :=
  if choice.trueBranches then Condition.outlook Condition.isAlwaysTrue else Condition.bothSides

namespace Graph

variable {graph : Graph}

/-- Right after the true branches are settled there is none on which the two views differ. -/
theorem traces_settled (hwired : graph.Wired) (events : List RunEvent) :
    (graph.after .trueBranches).Traces (Condition.outlook Condition.isAlwaysTrue) events ↔
      (graph.after .trueBranches).Traces Condition.bothSides events := by
  rw [after, traces_setParents, traces_setParents]
  refine traces_review ?_ events
  intro id code hid hcode
  have horder : graph.order.contains id = true :=
    List.contains_iff_mem.mpr (mem_order.mpr (reachable_settleAll hwired hid))
  rw [code?_settleAll] at hcode
  obtain ⟨own, hown, rfl⟩ := Option.map_eq_some_iff.mp hcode
  rw [if_pos horder, Exit.moves_outlook, Exit.settle_settle]

/-- All that the simplified graph does, on either side of its branches, the graph does as the
choice looks at it. -/
theorem traces_simplify (h : graph.WellFormed) (choice : Simplification)
    (events : List RunEvent) : graph.Traces choice.view events ↔
      (choice.passes.foldl after graph).Traces Condition.bothSides events := by
  obtain ⟨emptyJumps, trueBranches, mergeChains, split⟩ := choice
  cases trueBranches with
  | false =>
      refine traces_foldl_after h _ ?_ events
      intro hmem
      cases emptyJumps <;> cases mergeChains <;> cases split <;>
        simp [Simplification.passes] at hmem
  | true =>
      -- the passes up to the settling of branches, and those after it
      have hpasses : (Simplification.mk emptyJumps true mergeChains split).passes =
          ((if emptyJumps then [.emptyJumps] else []) ++ [.trueBranches]) ++
            ((if mergeChains then [.mergeChains] else []) ++ (if split then [.split] else [])) := by
        simp [Simplification.passes]
      rw [hpasses, List.foldl_append]
      have hfront := (h.foldlM_apply ((if emptyJumps then [.emptyJumps] else []) ++
        [.trueBranches])).2
      rw [← traces_foldl_after hfront _ ?_ events]
      · show graph.Traces (Condition.outlook Condition.isAlwaysTrue) events ↔ _
        rw [traces_foldl_after h ((if emptyJumps then [.emptyJumps] else []) ++ [.trueBranches])
          (fun _ _ => Condition.outlook_isAlwaysTrue) events, List.foldl_append]
        have hbefore := (h.foldlM_apply (if emptyJumps then [.emptyJumps] else [])).2
        exact traces_settled hbefore.toWired events
      · intro hmem
        cases mergeChains <;> cases split <;> simp at hmem

/-- What is counted on the paths of the simplified graph is what is seen as the choice looks at
the graph. -/
theorem counts_simplify {α : Type} (h : graph.WellFormed) (choice : Simplification)
    (tally : Tally α) (items : List α) :
    (choice.passes.foldl after graph).Counts tally (choice.passes.foldl after graph).Edge items ↔
      ∃ events, graph.Traces choice.view events ∧ items <+: tally.ofEvents events := by
  have hwired := (h.foldlM_apply choice.passes).2.toWired
  rw [counts_iff_traces (agrees_bothSides _ tally) hwired]
  simp only [traces_simplify h choice]

end Graph

/-! ## Literals -/

namespace Program

variable {program : Program} {built : Graph}

/-- No variable occurs in the literal `true`, with parentheses around it or without. -/
def PlainLiterals (program : Program) : Prop :=
  ∀ node ∈ Node.nodesAll program.root.children, node.unparenthesized.kind = .trueLiteral →
    ∀ site ∈ node.sites, site.isVariable = false

instance (program : Program) : Decidable program.PlainLiterals :=
  inferInstanceAs (Decidable (∀ node ∈ Node.nodesAll program.root.children,
    node.unparenthesized.kind = .trueLiteral → ∀ site ∈ node.sites, site.isVariable = false))

theorem expressionActions_of_plain {expression : Node}
    (h : ∀ site ∈ expression.sites, site.isVariable = false) :
    expressionActions expression = [] := by
  rw [expressionActions]
  split
  · rename_i sites hsites
    have hnone : expression.sites.filter Site.isVariable = [] := by
      rw [List.filter_eq_nil_iff]
      intro site hsite
      simp [h site hsite]
    have hreads := reads_sublist expression sites hsites
    rw [hnone] at hreads
    rw [List.sublist_nil.mp hreads]
    rfl
  · rfl

/-- The edges that count after a choice of passes are those along which it looks at the graph. -/
theorem agrees_view (h : program.graph = .ok built) (hroles : program.SingleRoles)
    (hplain : program.PlainLiterals) (choice : Simplification) :
    built.Agrees .actions (if choice.trueBranches then built.LiveEdge else built.Edge)
      choice.view := by
  rw [Simplification.view]
  cases choice.trueBranches with
  | false => exact Graph.agrees_bothSides built .actions
  | true =>
      refine Graph.agrees_outlook ?_
      rintro id ⟨statements, exit⟩ hid hcode
      have hheld := held_of_code? h hroles hid hcode
      cases exit with
      | ret value => rfl
      | unset => rfl
      | jump next => rfl
      | branch condition onTrue onFalse =>
          rw [Exit.settle]
          split
          · rename_i htrue
            cases condition with
            | always => rfl
            | test node =>
                have hnode : node ∈ Node.nodesAll program.root.children := by
                  refine hheld node (List.mem_flatMap.mpr ⟨node, ?_, node.mem_nodes_self⟩)
                  exact List.mem_append_right _ (List.mem_singleton.mpr rfl)
                have hkind : node.unparenthesized.kind = .trueLiteral := of_decide_eq_true htrue
                have hnone := expressionActions_of_plain (hplain node hnode hkind)
                show [] = [node].flatMap expressionActions
                rw [List.flatMap_singleton, hnone]
          · rfl

/-! ## The analysis -/

/-- An analysis looks for the dependencies along the simplified graph. -/
theorem analyze_eq_ok {config : Config} {analysis : Analysis} :
    program.analyze config = .ok analysis ↔ ∃ built, program.graph = .ok built ∧
      ∃ found, program.flow (config.simplify.passes.foldl Graph.after built) program.names
          config.maxVisits = .ok found ∧
        analysis = ⟨config.simplify.passes.foldl Graph.after built, program.names, found⟩ := by
  constructor
  · intro h
    obtain ⟨built, hbuilt, h⟩ := exists_of_bind_eq_ok h
    obtain ⟨graph, hgraph, h⟩ := exists_of_bind_eq_ok h
    obtain ⟨found, hfound, h⟩ := exists_of_bind_eq_ok h
    cases h
    have hok := ((wellFormed_graph hbuilt).foldlM_apply config.simplify.passes).1
    cases hok.symm.trans hgraph
    exact ⟨built, hbuilt, found, hfound, rfl⟩
  · rintro ⟨built, hbuilt, found, hfound, rfl⟩
    have hok := ((wellFormed_graph hbuilt).foldlM_apply config.simplify.passes).1
    rw [analyze, hbuilt]
    show (Graph.simplify config.simplify built >>= _) = _
    rw [Graph.simplify, hok]
    show (program.flow _ program.names config.maxVisits >>= _) = _
    rw [hfound]
    rfl

/-- The dependencies found are the reaching definitions of the graph as it was built. -/
theorem reachingMap_analyze (hroles : program.SingleRoles)
    (hnames : ∀ site, program.names.get? site ≠ some unknownName) (hplain : program.PlainLiterals)
    {config : Config} {analysis : Analysis} (hbuilt : program.graph = .ok built)
    (h : program.analyze config = .ok analysis) (hend : analysis.dependencies.truncated = false) :
    built.ReachingMap (if config.simplify.trueBranches then built.LiveEdge else built.Edge)
      program.names analysis.dependencies.reads := by
  obtain ⟨built', hbuilt', found, hfound, rfl⟩ := analyze_eq_ok.mp h
  cases hbuilt.symm.trans hbuilt'
  have hwf := wellFormed_graph hbuilt
  have hwired := (hwf.foldlM_apply config.simplify.passes).2.toWired
  have hapart := readsApart hbuilt hroles config.simplify.passes
  refine (flow_spec hwired hapart hnames hfound hend).transfer ?_
  intro actions
  rw [Graph.counts_simplify hwf, Graph.counts_iff_traces
    (agrees_view hbuilt hroles hplain config.simplify) hwf.toWired]

/-- An analysis succeeds if nothing is refused that is seen as its choice of passes looks at the
graph. -/
theorem exists_analyze_iff {config : Config} :
    (∃ analysis, program.analyze config = .ok analysis) ↔ ∃ built, program.graph = .ok built ∧
      ∀ items, (∃ events, built.Traces config.simplify.view events ∧
        items <+: Tally.refusals.ofEvents events) → items = [] := by
  have hflow : ∀ {built : Graph}, program.graph = .ok built →
      ((∃ found, program.flow (config.simplify.passes.foldl Graph.after built) program.names
        config.maxVisits = .ok found) ↔
      ∀ items, (∃ events, built.Traces config.simplify.view events ∧
        items <+: Tally.refusals.ofEvents events) → items = []) := by
    intro built hbuilt
    have hwf := wellFormed_graph hbuilt
    simp only [← Graph.counts_simplify hwf]
    rw [← Graph.exists_effects_iff (hwf.foldlM_apply config.simplify.passes).2.toWired, flow,
      exists_bind_iff]
    constructor
    · rintro ⟨found, hfound, -⟩
      exact ⟨found, hfound⟩
    · rintro ⟨found, hfound⟩
      exact ⟨found, hfound, _, rfl⟩
  simp only [analyze_eq_ok]
  constructor
  · rintro ⟨analysis, built, hbuilt, found, hfound, -⟩
    exact ⟨built, hbuilt, (hflow hbuilt).mp ⟨found, hfound⟩⟩
  · rintro ⟨built, hbuilt, hnone⟩
    obtain ⟨found, hfound⟩ := (hflow hbuilt).mpr hnone
    exact ⟨_, built, hbuilt, found, hfound, rfl⟩

/-- Dependencies do not depend on the passes, but for the one that settles true branches: they are
the reaching definitions of the graph as it was built, along all of its edges or along the live
ones. -/
theorem analyze_reaching (hroles : program.SingleRoles)
    (hnames : ∀ site, program.names.get? site ≠ some unknownName)
    (hplain : program.PlainLiterals) :
    (∀ config analysis, program.analyze config = .ok analysis →
      analysis.dependencies.truncated = false → ∃ built, program.graph = .ok built ∧
        built.ReachingMap (if config.simplify.trueBranches then built.LiveEdge else built.Edge)
          program.names analysis.dependencies.reads) ∧
    ∀ config config' : Config, config.simplify.trueBranches = config'.simplify.trueBranches →
      ((∃ analysis, program.analyze config = .ok analysis) ↔
        ∃ analysis, program.analyze config' = .ok analysis) ∧
      ∀ analysis analysis', program.analyze config = .ok analysis →
        program.analyze config' = .ok analysis' → analysis.dependencies.truncated = false →
        analysis'.dependencies.truncated = false →
        analysis.dependencies.reads = analysis'.dependencies.reads := by
  constructor
  · intro config analysis h hend
    obtain ⟨built, hbuilt, -⟩ := analyze_eq_ok.mp h
    exact ⟨built, hbuilt, reachingMap_analyze hroles hnames hplain hbuilt h hend⟩
  · intro config config' hsame
    constructor
    · have hview : config.simplify.view = config'.simplify.view := by
        rw [Simplification.view, hsame]
        rfl
      rw [exists_analyze_iff, exists_analyze_iff, hview]
    · intro analysis analysis' h h' hend hend'
      obtain ⟨built, hbuilt, -⟩ := analyze_eq_ok.mp h
      have hmap := reachingMap_analyze hroles hnames hplain hbuilt h hend
      have hmap' := reachingMap_analyze hroles hnames hplain hbuilt h' hend'
      rw [← hsame] at hmap'
      refine reachingMap_unique hbuilt hroles ?_ hmap hmap'
      intro id next hedge
      split at hedge
      · exact Graph.edge_of_liveEdge hedge
      · exact hedge

theorem analyze_reaching_sample : ∃ built analysis analysis', sample.graph = .ok built ∧
    sample.analyze {} = .ok analysis ∧
    sample.analyze { simplify := ⟨false, true, true, true⟩ } = .ok analysis' ∧
    built.ReachingMap built.LiveEdge sample.names analysis.dependencies.reads ∧
    analysis.dependencies.reads ≠ [] ∧
    analysis.dependencies.reads = analysis'.dependencies.reads := by
  have hrun : (do
      let analysis ← sample.analyze {}
      let analysis' ← sample.analyze { simplify := ⟨false, true, true, true⟩ }
      return (analysis.dependencies.truncated, analysis'.dependencies.truncated,
        analysis.dependencies.reads.isEmpty)) = .ok (false, false, false) := by
    cbv
  obtain ⟨analysis, h, hrun⟩ := exists_of_bind_eq_ok hrun
  obtain ⟨analysis', h', hrun⟩ := exists_of_bind_eq_ok hrun
  have hend : analysis.dependencies.truncated = false ∧
      analysis'.dependencies.truncated = false ∧
      analysis.dependencies.reads.isEmpty = false := by
    simpa [pure, Except.pure] using hrun
  have hplain : sample.PlainLiterals := by decide
  obtain ⟨hmap, hequal⟩ := analyze_reaching singleRoles_sample names_sample hplain
  obtain ⟨built, hbuilt, hreaching⟩ := hmap _ analysis h hend.1
  refine ⟨built, analysis, analysis', hbuilt, h, h', hreaching, ?_, ?_⟩
  · simpa using hend.2.2
  · have hsame := hequal {} { simplify := ⟨false, true, true, true⟩ } rfl
    exact hsame.2 analysis analysis' h h' hend.1 hend.2.1

end Program

end DefUse
