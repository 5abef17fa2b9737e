/-
# `Proofs.Comment.Analysis` — comments change nothing

A program and the same program without its comments (`Program.uncommented`) have the same
entry, the same graphs, names and dependencies, or are refused for the same reason
(`Program.analyses_uncommented`).  "The same" needs care in one place only: the nodes that
a graph holds are parts of the tree, and there they are without their comments, too.

What is asked of the comments is that they are leaves and have no role
(`Program.BareComments`), as comments have that a grammar lets stand between any two
tokens.
-/
import Mathlib
import DefUse.Proofs.Comment.Statement
import DefUse.Proofs.Comment.Walk
import DefUse.Proofs.Dependency.Flow

namespace DefUse

open DefUse.Tree
open DefUse.Tree.Node

variable {program : Program}

/-! ## The program without its comments -/

/-- The entry without the comments in it. -/
def Entry.uncommented (entry : Entry) : Entry :=
  ⟨entry.body.uncommented, entry.function.map Node.uncommented⟩

namespace Program

/-- The program without its comments.  Its source stays, so that every site means the same text. -/
def uncommented (program : Program) : Program where
  source := program.source
  dialect := program.dialect
  root := program.root.uncommented
  distinct := program.distinct.sublist (program.root.sites_uncommented_sublist.map Site.id)

/-- The comments of the program are leaves and have no role. -/
def BareComments (program : Program) : Prop :=
  program.root.Bare

instance (program : Program) : Decidable program.BareComments :=
  inferInstanceAs (Decidable (∀ node ∈ program.root.nodes, _ → _))

theorem entry_uncommented (h : program.BareComments) :
    program.uncommented.entry = program.entry.uncommented := by
  have hcontent : program.uncommented.root.namedChildren.filter (fun node => !node.isComment) =
      (program.root.namedChildren.filter fun node => !node.isComment).map Node.uncommented := by
    have hcomp : (fun node => !isComment node) ∘ Node.uncommented =
        fun node => !node.isComment := by
      funext node
      rw [Function.comp_apply, isComment, site_uncommented]
      rfl
    rw [uncommented, namedChildren_uncommented, List.filter_map, hcomp, List.filter_filter]
    simp only [Bool.and_self]
  rw [entry, entry, hcontent]
  cases hlist : program.root.namedChildren.filter fun node => !node.isComment with
  | nil => rfl
  | cons only rest =>
      cases rest with
      | cons next others => rfl
      | nil =>
          have honly : only ∈ program.root.namedChildren.filter fun node => !node.isComment :=
            hlist ▸ List.mem_singleton.mpr rfl
          have hbare :=
            (h.below.of_mem (List.mem_of_mem_filter (List.mem_of_mem_filter honly))).below
          simp only [List.map_cons, List.map_nil, kind_uncommented, field?_uncommented hbare]
          split
          · cases only.field? .body <;> rfl
          · rfl

theorem bare_entry (h : program.BareComments) :
    Node.BareComments (nodesAll program.entry.body.children) :=
  Node.BareComments.mono h
    (program.nodes_entry_sublist.trans program.root.nodesAll_sublist).subset

/-! ## Names and lexical dependencies -/

theorem names_uncommented (h : program.BareComments) :
    program.uncommented.names = program.names := by
  have hparameters : program.uncommented.parameters = program.parameters.map Node.uncommented := by
    rw [parameters_eq, parameters_eq, entry_uncommented h]
    rcases program.entry_cases with hentry | ⟨only, honly, body, -, hentry⟩
    · rw [hentry]
      rfl
    · have hbare : Node.BareComments only.nodes := h.below.of_mem honly
      rw [hentry]
      simp only [Entry.uncommented, Option.map_some, Option.bind_some,
        field?_uncommented hbare.below]
      cases hparameters : only.field? .parameters with
      | none => rfl
      | some parameters => exact Resolver.parameters_uncommented (hbare.field? hparameters)
  have hsteps : program.uncommented.steps = program.steps := by
    rw [steps, steps, hparameters, entry_uncommented h, Entry.uncommented, children_uncommented,
      Names.stepsNamed_uncommentedAll _ (bare_entry h), List.map_map]
    simp only [Function.comp_def, site_uncommented]
  rw [names_eq_foldl, hsteps, names_eq_foldl]
  rfl

theorem lexical_uncommented (h : program.BareComments) :
    program.uncommented.lexical = program.lexical := by
  have hmoves : program.uncommented.lexicalMoves = program.lexicalMoves := by
    rw [lexicalMoves, entry_uncommented h, Entry.uncommented, children_uncommented,
      LexicalWalk.movesNamed_uncommentedAll _ (bare_entry h)]
    rfl
  rw [lexical_eq, hmoves, lexical_eq]
  rfl

end Program

/-! ## Graphs -/

/-- The graph of a program without comments, next to the one with comments. -/
structure Graph.Uncomments (bare graph : Graph) : Prop where
  eq : bare = graph.mapNodes Node.uncommented
  wellFormed : graph.WellFormed
  holds : graph.Holds Bare Bare

/-- The literal `true` is recognised behind comments. -/
theorem Condition.isAlwaysTrue_uncommented (condition : Condition) :
    (condition.mapNodes Node.uncommented).isAlwaysTrue = condition.isAlwaysTrue := by
  cases condition with
  | always => rfl
  | test node =>
      rw [mapNodes, isAlwaysTrue, unparenthesized_uncommented, kind_uncommented]
      rfl

namespace Program

theorem graph_uncommented (h : program.BareComments) :
    SameEnd Graph.Uncomments program.uncommented.graph program.graph := by
  have hstatement : SameEnd Statement.Uncomments program.uncommented.statement
      program.statement := by
    rw [statement, entry_uncommented h, Entry.uncommented, children_uncommented]
    exact Statement.ofNamed_uncommentedAll false _ (bare_entry h)
  refine hstatement.bind ?_
  intro bare statement hsame
  rw [hsame.graph, Graph.refresh_mapNodes, statement.wired_graph.refresh]
  exact .ok ⟨rfl, statement.wired_graph.setParents,
    (Statement.holds_graph hsame.holds).setParents⟩

/-- Passes keep it up. -/
theorem passes_uncommented (h : program.BareComments) (passes : List Pass) :
    SameEnd Graph.Uncomments (program.uncommented.graph >>= passes.foldlM Graph.apply)
      (program.graph >>= passes.foldlM Graph.apply) := by
  refine (graph_uncommented h).bind ?_
  rintro _ graph ⟨rfl, hwf, hholds⟩
  obtain ⟨hok, hafter⟩ := hwf.foldlM_apply passes
  rw [Graph.foldlM_apply_mapNodes Condition.isAlwaysTrue_uncommented, hok]
  exact .ok ⟨rfl, hafter, Graph.holds_foldl_after hwf hholds passes⟩

end Program

/-! ## Dependencies along the graph -/

theorem SameActions.flatten {steps others : List (List Effect)}
    (h : List.Forall₂ SameActions steps others) : SameActions steps.flatten others.flatten := by
  induction h with
  | nil => rfl
  | cons hfirst _ ih => exact hfirst.append ih

theorem Block.effects_uncommented {block : Block} (h : block.code.Holds Bare Bare) :
    SameEnd (fun bare effects => bare.actions = effects.actions)
      (block.mapNodes Node.uncommented).effects block.effects := by
  have hsteps : SameEnd (List.Forall₂ SameActions)
      ((block.statements.map Node.uncommented).mapM DefUse.effects)
      (block.statements.mapM DefUse.effects) := by
    refine SameEnd.mapM_map ?_
    intro statement hstatement
    exact DefUse.effects_uncommented (h.statements statement hstatement)
  refine hsteps.bind ?_
  intro steps others hsame
  have hexit : readsOf? (block.mapNodes Node.uncommented).exit.expression? =
      readsOf? block.exit.expression? := by
    rw [Block.mapNodes, Exit.expression?_mapNodes]
    exact readsOf?_uncommented h.exit
  rw [hexit]
  cases readsOf? block.exit.expression? with
  | error e => exact .error e
  | ok sites =>
      exact .ok (congrArg (fun actions => actions ++ sites.map Action.read)
        (SameActions.flatten hsame))

theorem Graph.effects_uncommented {graph : Graph} (h : graph.Holds Bare Bare) :
    SameEnd (List.Forall₂ fun bare entry => bare.1 = entry.1 ∧ bare.2.actions = entry.2.actions)
      (graph.mapNodes Node.uncommented).effects graph.effects := by
  rw [effects, reachable_mapNodes]
  refine SameEnd.mapM_map ?_
  intro block hblock
  obtain ⟨id, -, hid⟩ := List.mem_filterMap.mp hblock
  exact (Block.effects_uncommented (h id _ (code?_of_block? hid))).bind
    fun _ _ hactions => .ok ⟨rfl, hactions⟩

theorem lookup_actions_eq {bare effects : List (BlockId × BlockEffects)}
    (h : List.Forall₂ (fun bare entry => bare.1 = entry.1 ∧ bare.2.actions = entry.2.actions)
      bare effects) (id : BlockId) :
    (bare.lookup id).map BlockEffects.actions = (effects.lookup id).map BlockEffects.actions := by
  induction h with
  | nil => rfl
  | @cons first other _ _ hfirst _ ih =>
      rw [List.lookup_cons, List.lookup_cons, hfirst.1]
      cases id == other.1 with
      | true => exact congrArg some hfirst.2
      | false => exact ih

namespace Flow

variable {problem other : FlowProblem}

theorem passage_eq_foldl (problem : FlowProblem) (id : BlockId) (incoming : Definitions)
    (flow : Flow) : flow.passage problem id incoming =
      (((problem.effects.lookup id).map BlockEffects.actions).getD []).foldl
        (Passage.act problem.program problem.names)
        ⟨flow.arriving id incoming, flow.reads, flow.events⟩ := by
  rw [passage]
  cases problem.effects.lookup id with
  | none => rfl
  | some effects => exact Passage.through_eq _ _ _ _

/-- The iteration sees nothing of a block but its successors and what happens on the way through
it. -/
theorem run_congr (hsuccessors : ∀ id, problem.graph.successors id = other.graph.successors id)
    (hpassage : ∀ id incoming flow,
      passage problem id incoming flow = passage other id incoming flow)
    (maxVisits : Nat) (queue : List (BlockId × Definitions)) (flow : Flow) :
    run problem maxVisits queue flow = run other maxVisits queue flow := by
  fun_induction run problem maxVisits queue flow with
  | case1 flow => rw [run]
  | case2 flow id incoming rest hcovers ih => rw [run, if_pos hcovers, ih]
  | case3 flow id incoming rest hcovers hvisits leaving next ih =>
      have hvisit : flow.visit problem id incoming = flow.visit other id incoming := by
        rw [visit, visit, hpassage]
      rw [run, if_neg hcovers, if_pos hvisits, ← hpassage, ← hsuccessors, ← hvisit]
      exact ih
  | case4 flow id incoming rest hcovers hvisits => rw [run, if_neg hcovers, if_neg hvisits]

end Flow

namespace Program

theorem flow_uncommented {graph : Graph} (h : graph.Holds Bare Bare) (names : Names)
    (maxVisits : Nat) :
    program.uncommented.flow (graph.mapNodes Node.uncommented) names maxVisits =
      program.flow graph names maxVisits := by
  refine (Graph.effects_uncommented h).bind_eq ?_
  intro bare effects hsame
  have hrun : ∀ queue flow,
      Flow.run ⟨program.uncommented, graph.mapNodes Node.uncommented, names, bare⟩ maxVisits queue
          flow =
        Flow.run ⟨program, graph, names, effects⟩ maxVisits queue flow := by
    refine Flow.run_congr (Graph.successors_mapNodes Node.uncommented graph) ?_ maxVisits
    intro id incoming flow
    rw [Flow.passage_eq_foldl, Flow.passage_eq_foldl, lookup_actions_eq hsame id]
    rfl
  exact congrArg (fun flow => Except.ok flow.dependencies) (hrun _ _)

/-- Comments have no influence: without them a program has the same entry, the same graphs after
all passes, the same names, the same conditions that hold always and the same dependencies. -/
theorem analyses_uncommented (h : program.BareComments) :
    sitesAll program.uncommented.root.children =
        (sitesAll program.root.children).filter (fun site => !site.isComment) ∧
      program.uncommented.entry = program.entry.uncommented ∧
      (∀ passes : List Pass, (program.uncommented.graph >>= passes.foldlM Graph.apply) =
        (program.graph >>= passes.foldlM Graph.apply).map (Graph.mapNodes Node.uncommented)) ∧
      program.uncommented.names = program.names ∧
      (∀ condition : Condition,
        (condition.mapNodes Node.uncommented).isAlwaysTrue = condition.isAlwaysTrue) ∧
      (∀ (passes : List Pass) (names : Names) (maxVisits : Nat),
        (program.uncommented.graph >>= passes.foldlM Graph.apply >>= fun graph =>
          program.uncommented.flow graph names maxVisits) =
        (program.graph >>= passes.foldlM Graph.apply >>= fun graph =>
          program.flow graph names maxVisits)) ∧
      program.uncommented.lexical = program.lexical := by
  refine ⟨?_, entry_uncommented h, ?_, names_uncommented h, Condition.isAlwaysTrue_uncommented, ?_,
    lexical_uncommented h⟩
  · rw [uncommented, children_uncommented]
    exact sitesAll_uncommentedAll _ h.below
  · intro passes
    exact (passes_uncommented h passes).eq_map fun _ _ hsame => hsame.eq
  · intro passes names maxVisits
    refine (passes_uncommented h passes).bind_eq ?_
    rintro _ graph ⟨rfl, -, hholds⟩
    exact flow_uncommented hholds names maxVisits

/-- Comments among the statements, in parentheses and in a comma expression. -/
def commentedTree : Node :=
  sampleNode (.other "program") 0 50 []
    [sampleNode .lexicalDeclaration 0 10 []
      [sampleNode .variableDeclarator 4 9 []
        [sampleNode .identifier 4 5 [.name] [],
          sampleNode (.other "number") 8 9 [.value] []]],
      sampleNode (.comment "comment") 11 16 [] [],
      sampleNode .whileStatement 17 50 []
        [sampleNode .parenthesizedExpression 23 34 [.condition]
          [sampleNode (.comment "comment") 24 29 [] [],
            sampleNode .trueLiteral 29 33 [] []],
          sampleNode .expressionStatement 35 50 [.body]
            [sampleNode .sequenceExpression 35 49 []
              [sampleNode .assignmentExpression 35 40 []
                [sampleNode .identifier 35 36 [.left] [],
                  sampleNode (.other "number") 39 40 [.right] []],
                sampleNode (.comment "comment") 42 47 [] [],
                sampleNode .identifier 48 49 [] []]]]]

def commented : Program :=
  ⟨"let a = 1; /*c*/ while (/*d*/true) a = 1, /*e*/ a;", .javascript, commentedTree.number 0,
    commentedTree.nodup_ids_number 0⟩

theorem analyses_uncommented_commented : commented.BareComments ∧
    commented.uncommented.root.sites.length + 3 = commented.root.sites.length ∧
    (∃ graph, (commented.graph >>= [.trueBranches].foldlM Graph.apply) = .ok graph ∧
      (commented.uncommented.graph >>= [.trueBranches].foldlM Graph.apply) =
        .ok (graph.mapNodes Node.uncommented)) ∧
    ∃ found, commented.lexical = .ok found ∧ found.reads.length = 1 ∧
      commented.uncommented.lexical = .ok found := by
  have hbare : commented.BareComments := by decide
  obtain ⟨-, -, hgraphs, -, -, -, hlexical⟩ := analyses_uncommented hbare
  have hgraph : ((commented.graph >>= [.trueBranches].foldlM Graph.apply).map fun _ => ()) =
      .ok () := by
    cbv
  have hreads : (commented.lexical.map fun found => found.reads.length) = .ok 1 := by
    cbv
  refine ⟨hbare, by decide, ?_, ?_⟩
  · rw [hgraphs]
    cases hok : commented.graph >>= [.trueBranches].foldlM Graph.apply with
    | error e =>
        rw [hok] at hgraph
        cases hgraph
    | ok graph => exact ⟨graph, rfl, rfl⟩
  · rw [hlexical]
    cases hok : commented.lexical with
    | error e =>
        rw [hok] at hreads
        cases hreads
    | ok found =>
        rw [hok] at hreads
        exact ⟨found, rfl, Except.ok.inj hreads, rfl⟩

end Program

end DefUse
