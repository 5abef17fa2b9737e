/-
# `Proofs.Dependency.Straight` — both analyses agree on straight-line code

Without branches and loops there is one path, and then the assignment that the lexical
walk met last is the one that reaches a read.  `Program.flow_eq_lexical` says so for
programs of nested blocks, expression statements and declarations with values.

Two things are shown of each statement of such a program.  Its graph is one block that
makes the accesses of the lexical walk, in the same order (`exists_ofNode`); and along
these accesses the lexical walk and the flow analysis keep pace (`follows_moves`).  So the
one visit that the flow analysis makes notes what the walk noted.

A declaration without a value is left out on purpose: it hides an outer variable for the
walk, and for the flow analysis it does nothing.
-/
import DefUse.Proofs.Dependency.Coverage
import DefUse.Proofs.Dependency.Tracking

namespace DefUse

open DefUse.Tree
open DefUse.Names

/-! ## Straight-line code -/

/-- No declaration of variables is among the nodes or below them. -/
def declarationFree (nodes : List Node) : Bool :=
  (Node.nodesAll nodes).all fun node => !isDeclaration node

/-- Every declarator has a value, and nothing is declared inside of it. -/
def initialized (declaration : Node) : Bool :=
  (declarators declaration).all fun declarator =>
    (declarator.field? .value).any fun value => declarationFree [value]

mutual

/-- Is the statement straight-line code? -/
def straight : Node → Bool
  | .mk site children =>
    match site.kind with
    | .statementBlock => straightNamed children
    | .lexicalDeclaration | .variableDeclaration => initialized (.mk site children)
    | .expressionStatement | .emptyStatement | .hashBangLine | .comment _ =>
      declarationFree children
    | _ => false

/-- Are the named ones among several nodes straight-line code? -/
def straightNamed : List Node → Bool
  | [] => true
  | child :: rest => (!child.isNamed || straight child) && straightNamed rest

end

/-- Is the program straight-line code, and no function? -/
def Program.straight (program : Program) : Bool :=
  program.entry.function.isNone && straightNamed program.entry.body.children

theorem declarationFree_iff {nodes : List Node} : declarationFree nodes = true ↔
    ∀ node ∈ Node.nodesAll nodes, isDeclaration node = false := by
  rw [declarationFree, List.all_eq_true]
  simp only [Bool.not_eq_true']

/-! ## One block -/

namespace Statement

/-- Simple statements in a row and nothing else. -/
def Linear : Statement → Prop
  | skip | simple _ => True
  | seq first second => first.Linear ∧ second.Linear
  | _ => False

end Statement

/-- The current block takes all that a linear statement holds, and no other block is needed. -/
theorem Draft.add_linear (statement : Statement) (h : statement.Linear)
    (loop : Option LoopTargets) (draft : Draft) :
    (add statement loop draft).current = draft.current ∧
    (add statement loop draft).graph.entry = draft.graph.entry ∧
    (add statement loop draft).graph.code? draft.current =
      (draft.graph.code? draft.current).map fun code =>
        { code with statements := code.statements ++ statement.held } := by
  induction statement generalizing draft with
  | skip =>
      refine ⟨rfl, rfl, ?_⟩
      simp [add, Statement.held]
  | simple node =>
      refine ⟨rfl, rfl, ?_⟩
      rw [add, Graph.code?_append, if_pos rfl]
      rfl
  | seq first second ihFirst ihSecond =>
      obtain ⟨hfirst, hsecond⟩ := h
      obtain ⟨hcurrent, hentry, hcode⟩ := ihFirst hfirst draft
      obtain ⟨hcurrent', hentry', hcode'⟩ := ihSecond hsecond (add first loop draft)
      refine ⟨hcurrent'.trans hcurrent, hentry'.trans hentry, ?_⟩
      rw [hcurrent, hcode, Option.map_map] at hcode'
      rw [add, hcode']
      simp [Function.comp_def, Statement.held]
  | ifElse | whileLoop | doLoop | forLoop | jump | ret => cases h

/-- The graph of a linear statement begins with a block that holds it and ends the run. -/
theorem Statement.Linear.code?_entry {statement : Statement} (h : statement.Linear) :
    statement.graph.setParents.code? statement.graph.setParents.entry =
      some ⟨statement.held, .ret none⟩ ∧
    statement.graph.setParents.successors statement.graph.setParents.entry = [] := by
  obtain ⟨-, hentry, hcode⟩ := Draft.add_linear statement h none Draft.start
  have hheld : statement.graph.setParents.code? statement.graph.setParents.entry =
      some ⟨statement.held, .ret none⟩ := by
    rw [Graph.code?_setParents, Graph.entry_setParents, Statement.graph, hentry]
    exact hcode
  exact ⟨hheld, Graph.successors_of_code? hheld⟩

/-- If nothing comes after the entry, the flow analysis goes through it once and is done. -/
theorem Program.flow_of_successors {program : Program} {graph : Graph} (hwired : graph.Wired)
    (hreads : graph.ReadsApart) {effects : List (BlockId × BlockEffects)}
    (heffects : graph.effects = .ok effects) (hnext : graph.successors graph.entry = [])
    (names : Names) {maxVisits : Nat} (hvisits : 1 ≤ maxVisits) :
    ∃ found, program.flow graph names maxVisits = .ok found ∧ found.truncated = false ∧
      found.reads = ((graph.actionsAt graph.entry).foldl (Passage.act program names)
        ⟨[], [], []⟩).reads := by
  have hproper : FlowProblem.Proper ⟨program, graph, names, effects⟩ :=
    ⟨hwired, fun id hid => Graph.lookup_effects hwired heffects hid, hreads⟩
  have hrun : Flow.run ⟨program, graph, names, effects⟩ maxVisits [(graph.entry, [])] .start =
      Flow.start.visit ⟨program, graph, names, effects⟩ graph.entry [] := by
    have hnew : Flow.start.covers graph.entry [] = false := rfl
    have hleft : Flow.start.visits < maxVisits := hvisits
    rw [Flow.run, hnew, if_neg Bool.false_ne_true, if_pos hleft, hnext]
    simp only [List.map_nil, List.append_nil]
    rw [Flow.run]
  refine ⟨_, by rw [flow, heffects]; rfl, ?_⟩
  rw [hrun]
  exact ⟨rfl, congrArg Passage.reads (Flow.passage_eq hproper (.entry hwired.entry) [] .start)⟩

/-! ## The accesses of a statement -/

namespace LexicalWalk

theorem accesses_of_simpleMoves {node : Node} {found : List Move}
    (h : simpleMoves node = .ok found) : accesses found = statementActions node := by
  obtain ⟨steps, hsteps, h⟩ := exists_of_bind_eq_ok h
  cases h
  rw [accesses_map_act, statementActions, hsteps]

theorem accesses_of_declarationMoves {node : Node} {found : List Move}
    (h : declarationMoves node = .ok found) : accesses found = statementActions node := by
  obtain ⟨blanks, part, hblanks, hpart, rfl⟩ := Moves.andThen_eq_ok.mp h
  cases hblanks
  rw [accesses_append, accesses_of_simpleMoves hpart]
  simp [accesses]

mutual

/-- Straight-line code is a linear statement that makes the accesses of the walk. -/
theorem exists_ofNode (inLoop : Bool) : ∀ (node : Node) {found : List Move},
    straight node = true → moves node = .ok found →
      ∃ statement, Statement.ofNode inLoop node = .ok statement ∧ statement.Linear ∧
        statement.held.flatMap statementActions = accesses found
  | .mk site children, found, h, hmoves => by
      rw [straight] at h
      rw [moves] at hmoves
      rw [Statement.ofNode]
      generalize site.kind = kind at h hmoves
      split at h
      · obtain ⟨within, hwithin, rfl⟩ := Moves.framed_eq_ok.mp hmoves
        obtain ⟨statement, hstatement, hlinear, hheld⟩ :=
          exists_ofNamed inLoop children h hwithin
        refine ⟨statement, hstatement, hlinear, hheld.trans ?_⟩
        rw [← List.cons_append, accesses_append]
        simp [accesses]
      · exact ⟨_, rfl, trivial, (List.flatMap_singleton _ _).trans
          (accesses_of_declarationMoves hmoves).symm⟩
      · exact ⟨_, rfl, trivial, (List.flatMap_singleton _ _).trans
          (accesses_of_declarationMoves hmoves).symm⟩
      · exact ⟨_, rfl, trivial, (List.flatMap_singleton _ _).trans
          (accesses_of_simpleMoves hmoves).symm⟩
      · cases hmoves
        exact ⟨.skip, rfl, trivial, rfl⟩
      · cases hmoves
        exact ⟨.skip, rfl, trivial, rfl⟩
      · cases hmoves
        exact ⟨.skip, rfl, trivial, rfl⟩
      · cases h

theorem exists_ofNamed (inLoop : Bool) : ∀ (nodes : List Node) {found : List Move},
    straightNamed nodes = true → movesNamed nodes = .ok found →
      ∃ statement, Statement.ofNamed inLoop nodes = .ok statement ∧ statement.Linear ∧
        statement.held.flatMap statementActions = accesses found
  | [], found, _, hmoves => by
      cases hmoves
      exact ⟨.skip, rfl, trivial, rfl⟩
  | child :: rest, found, h, hmoves => by
      rw [straightNamed, Bool.and_eq_true, Bool.or_eq_true, Bool.not_eq_true'] at h
      obtain ⟨hchild, hrest⟩ := h
      rw [movesNamed] at hmoves
      rw [Statement.ofNamed]
      split at hmoves
      · rename_i hnamed
        rw [if_pos hnamed]
        have hstraight := hchild.resolve_left (by simp [hnamed])
        obtain ⟨before, after, hbefore, hafter, rfl⟩ := Moves.andThen_eq_ok.mp hmoves
        obtain ⟨first, hfirst, hlinear, hheld⟩ := exists_ofNode inLoop child hstraight hbefore
        obtain ⟨others, hothers, hlinear', hheld'⟩ := exists_ofNamed inLoop rest hrest hafter
        refine ⟨.seq first others, by rw [hfirst, hothers]; rfl, ⟨hlinear, hlinear'⟩, ?_⟩
        rw [Statement.held, List.flatMap_append, hheld, hheld', accesses_append]
      · rename_i hnamed
        rw [if_neg hnamed]
        exact exists_ofNamed inLoop rest hrest hmoves

end

/-! ## Keeping pace through a statement -/

theorem exists_value {node declarator : Node} (h : initialized node = true)
    (hdeclarator : declarator ∈ declarators node) :
    ∃ value, declarator.kind = .variableDeclarator ∧ declarator.field? .value = some value ∧
      ∀ other ∈ value.nodes, isDeclaration other = false := by
  have hvalue := List.all_eq_true.mp h declarator hdeclarator
  cases hfield : declarator.field? .value with
  | none =>
      rw [hfield] at hvalue
      cases hvalue
  | some value =>
      rw [hfield, Option.any_some, declarationFree_iff] at hvalue
      exact ⟨value, (mem_declarators hdeclarator).2, rfl,
        fun other hother => hvalue other (List.mem_append_left _ hother)⟩

theorem uninitialized_eq_nil {node : Node} (h : initialized node = true) :
    uninitialized node = [] := by
  have hnone : (declarators node).filter (fun node => (node.field? .value).isNone) = [] := by
    rw [List.filter_eq_nil_iff]
    intro declarator hdeclarator
    obtain ⟨value, -, hvalue, -⟩ := exists_value h hdeclarator
    simp [hvalue]
  rw [uninitialized, hnone]
  rfl

section Named

variable {program : Program} (hroles : program.SingleRoles) (hnames : program.NamesApart)

include hroles hnames

/-- A statement without declarations. -/
theorem follows_simple {node : Node} {found : List Move} (h : simpleMoves node = .ok found)
    (hplain : ∀ other ∈ node.nodes, isDeclaration other = false)
    (hnamed : ∀ other ∈ node.nodes, other.RoleNamed) :
    Follows program found (Names.steps node) := by
  obtain ⟨effects, heffects, h⟩ := exists_of_bind_eq_ok h
  cases h
  exact follows_of_met hroles hnames (keeps_steps node (declares_eq_false node hplain))
    (met_of_effects heffects hplain hnamed)

/-- A declarator with a value: the value is read, then the variable is bound. -/
theorem follows_declarator {declarator value : Node} {effect : Effect}
    (hkind : declarator.kind = .variableDeclarator)
    (h : Effect.ofDeclarator declarator = .ok effect)
    (hvalue : declarator.field? .value = some value)
    (hplain : ∀ other ∈ value.nodes, isDeclaration other = false)
    (hnamed : ∀ other ∈ value.nodes, other.RoleNamed) :
    Follows program (effect.actions.map .act) (stepsDeclarator declarator) := by
  obtain ⟨hvariable, hsites, hwrite⟩ := Effect.ofDeclarator_eq_ok hkind h
  rw [hvalue] at hsites hwrite
  rw [stepsDeclarator_eq, hvalue, Effect.actions, hwrite, List.map_append]
  refine Follows.append ?_ ?_
  · refine follows_of_met hroles hnames (keeps_steps value (declares_eq_false value hplain)) ?_
    intro action haction
    obtain ⟨site, hsite, rfl⟩ := List.mem_map.mp haction
    exact Effect.meets_of_reads hsites hplain hnamed hsite
  · cases hname : declarator.field? .name with
    | none => exact follows_of_keeps keeps_nil
    | some name =>
        show Follows program [.act (.write ⟨declarator.site, .declaration, name.site⟩)]
          (stepsName name)
        rw [stepsName, if_pos (hvariable name hname)]
        exact follows_declare hroles hnames rfl

theorem follows_declarators {nodes : List Node} {found : List Effect}
    (h : nodes.mapM Effect.ofDeclarator = .ok found)
    (hvalues : ∀ declarator ∈ nodes, ∃ value, declarator.kind = .variableDeclarator ∧
      declarator.field? .value = some value ∧
        (∀ other ∈ value.nodes, isDeclaration other = false) ∧
          ∀ other ∈ value.nodes, other.RoleNamed) :
    Follows program ((found.flatMap Effect.actions).map .act) (nodes.flatMap stepsDeclarator) := by
  induction nodes generalizing found with
  | nil =>
      cases h
      exact follows_of_keeps keeps_nil
  | cons declarator rest ih =>
      rw [List.mapM_cons] at h
      obtain ⟨effect, heffect, h⟩ := exists_of_bind_eq_ok h
      obtain ⟨others, hothers, h⟩ := exists_of_bind_eq_ok h
      cases h
      obtain ⟨⟨value, hkind, hvalue, hplain, hnamed⟩, hrest⟩ := List.forall_mem_cons.mp hvalues
      rw [List.flatMap_cons, List.flatMap_cons, List.map_append]
      exact (follows_declarator hroles hnames hkind heffect hvalue hplain hnamed).append
        (ih hothers hrest)

/-- A declaration in which every declarator has a value. -/
theorem follows_declaration {node : Node} {found : List Move}
    (hdeclaration : isDeclaration node = true) (hvalues : initialized node = true)
    (h : declarationMoves node = .ok found) (hnamed : ∀ other ∈ node.nodes, other.RoleNamed) :
    Follows program found (Names.steps node) := by
  obtain ⟨blanks, part, hblanks, hpart, rfl⟩ := Moves.andThen_eq_ok.mp h
  obtain ⟨effects, heffects, hpart⟩ := exists_of_bind_eq_ok hpart
  cases hblanks
  cases hpart
  rw [effects_of_isDeclaration hdeclaration] at heffects
  rw [uninitialized_eq_nil hvalues, steps_of_isDeclaration hdeclaration]
  refine follows_declarators hroles hnames heffects fun declarator hdeclarator => ?_
  obtain ⟨value, hkind, hvalue, hplain⟩ := exists_value hvalues hdeclarator
  refine ⟨value, hkind, hvalue, hplain, fun other hother => hnamed other ?_⟩
  have hinner : value ∈ declarator.children := List.mem_of_find?_eq_some hvalue
  exact Node.nodes_subset (mem_declarators hdeclarator).1 (Node.nodes_subset hinner hother)

end Named

mutual

/-- The lexical walk through straight-line code keeps pace with the renaming walk. -/
theorem follows_moves {program : Program} (hroles : program.SingleRoles)
    (hnames : program.NamesApart) : ∀ (node : Node) {found : List Move},
      straight node = true → moves node = .ok found → (∀ other ∈ node.nodes, other.RoleNamed) →
        Follows program found (Names.steps node)
  | .mk site children, found, h, hmoves, hnamed => by
      have hbelow : ∀ other ∈ Node.nodesAll children, other.RoleNamed :=
        fun other hother => hnamed other (List.mem_cons_of_mem _ hother)
      -- where the lexical walk does nothing, nothing is declared
      have hskip : ∀ {kind : Kind}, site.kind = kind → goesOn kind = true →
          declarationFree children = true →
            Follows program [] (Names.steps (.mk site children)) := by
        rintro _ rfl hgoes hfree
        have hself : goesOn (Node.mk site children).kind = true := hgoes
        rw [steps_of_goesOn hself]
        exact follows_of_keeps (keeps_stepsNamed children
          (declaresNamed_of_nodes children (declarationFree_iff.mp hfree)))
      rw [straight] at h
      rw [moves] at hmoves
      split at h
      · rename_i hkind
        rw [hkind] at hmoves
        obtain ⟨within, hwithin, rfl⟩ := Moves.framed_eq_ok.mp hmoves
        rw [Names.steps, hkind]
        exact follows_push.append
          ((follows_movesNamed hroles hnames children h hwithin hbelow).append follows_pop)
      · rename_i hkind
        rw [hkind] at hmoves
        exact follows_declaration hroles hnames (by simp [isDeclaration, Node.kind, hkind]) h hmoves
          hnamed
      · rename_i hkind
        rw [hkind] at hmoves
        exact follows_declaration hroles hnames (by simp [isDeclaration, Node.kind, hkind]) h hmoves
          hnamed
      · rename_i hkind
        rw [hkind] at hmoves
        refine follows_simple hroles hnames hmoves ?_ hnamed
        refine List.forall_mem_cons.mpr ⟨?_, declarationFree_iff.mp h⟩
        simp [isDeclaration, Node.kind, hkind]
      · rename_i hkind
        rw [hkind] at hmoves
        cases hmoves
        exact hskip hkind rfl h
      · rename_i hkind
        rw [hkind] at hmoves
        cases hmoves
        exact hskip hkind rfl h
      · rename_i hkind
        rw [hkind] at hmoves
        cases hmoves
        exact hskip hkind rfl h
      · cases h

theorem follows_movesNamed {program : Program} (hroles : program.SingleRoles)
    (hnames : program.NamesApart) : ∀ (nodes : List Node) {found : List Move},
      straightNamed nodes = true → movesNamed nodes = .ok found →
        (∀ other ∈ Node.nodesAll nodes, other.RoleNamed) →
          Follows program found (stepsNamed nodes)
  | [], found, _, hmoves, _ => by
      cases hmoves
      rw [stepsNamed]
      exact follows_of_keeps keeps_nil
  | child :: rest, found, h, hmoves, hnamed => by
      rw [Node.nodesAll] at hnamed
      rw [straightNamed, Bool.and_eq_true, Bool.or_eq_true, Bool.not_eq_true'] at h
      obtain ⟨hchild, hrest⟩ := h
      have hlater : ∀ other ∈ Node.nodesAll rest, other.RoleNamed :=
        fun other hother => hnamed other (List.mem_append_right _ hother)
      rw [movesNamed] at hmoves
      rw [stepsNamed]
      split at hmoves
      · rename_i hnamed'
        rw [if_pos hnamed']
        have hstraight := hchild.resolve_left (by simp [hnamed'])
        obtain ⟨before, after, hbefore, hafter, rfl⟩ := Moves.andThen_eq_ok.mp hmoves
        exact (follows_moves hroles hnames child hstraight hbefore fun other hother =>
          hnamed other (List.mem_append_left _ hother)).append
            (follows_movesNamed hroles hnames rest hrest hafter hlater)
      · rename_i hnamed'
        rw [if_neg hnamed']
        exact follows_movesNamed hroles hnames rest hrest hmoves hlater

end

end LexicalWalk

/-! ## Programs -/

namespace Program

open LexicalWalk

variable {program : Program} {lexical : Dependencies} {maxVisits : Nat}

/-- At the end of straight-line code, the lexical walk knows what one pass over its accesses
knows. -/
theorem tracks_of_straight (hfunction : program.entry.function = none)
    (hstraight : straightNamed program.entry.body.children = true) (hroles : program.SingleRoles)
    (hnamed : ∀ node ∈ Node.nodesAll program.root.children, node.RoleNamed)
    (hnames : program.NamesApart) {found : List Move} (hmoves : program.lexicalMoves = .ok found) :
    Tracks program (found.foldl (take program) .start) program.binder.scope
      ((accesses found).foldl (Passage.act program program.names) ⟨[], [], []⟩) := by
  have hsteps : program.steps = stepsNamed program.entry.body.children ++ [] := by
    rw [steps, parameters, hfunction, List.append_nil]
    rfl
  have hstage := program.stage_start
  rw [hsteps] at hstage
  rw [binder, hsteps, List.append_nil]
  refine follows_movesNamed hroles hnames _ hstraight hmoves ?_ [] .start .start ⟨[], [], []⟩
    hstage tracks_start
  exact fun node hnode => hnamed node (program.nodes_entry_sublist.subset hnode)

/-- On straight-line code the flow analysis finds what the lexical walk finds: if the walk
succeeds, then so does the flow analysis along the graph of the program, with one visit, and every
read depends on the same assignments.

`SingleRoles` and `RoleNamed` leave out no source of this kind: in the trees that the grammars give
for nested blocks, expression statements and declarations, no node has two roles, and what has a
role is no mere token.  They only exclude trees that no source has. -/
theorem flow_eq_lexical (hstraight : program.straight = true) (hroles : program.SingleRoles)
    (hnamed : ∀ node ∈ Node.nodesAll program.root.children, node.RoleNamed)
    (hnames : program.NamesApart) (hlexical : program.lexical = .ok lexical)
    (hvisits : 1 ≤ maxVisits) :
    ∃ built found, program.graph = .ok built ∧
      program.flow built program.names maxVisits = .ok found ∧
      found.truncated = false ∧ found.reads = lexical.reads := by
  rw [straight, Bool.and_eq_true, Option.isNone_iff_eq_none] at hstraight
  obtain ⟨hfunction, hstraight⟩ := hstraight
  rw [lexical_eq] at hlexical
  cases hmoves : program.lexicalMoves with
  | error e =>
      rw [hmoves] at hlexical
      cases hlexical
  | ok moves =>
      rw [hmoves] at hlexical
      cases hlexical
      obtain ⟨statement, hstatement, hlinear, hheld⟩ := exists_ofNamed false _ hstraight hmoves
      have hgraph : program.graph = .ok statement.graph.setParents := graph_of_statement hstatement
      have hholds : statement.graph.setParents.Holds (Runs moves) (Reads moves) :=
        holds_graph hgraph hmoves []
      -- the one block of the graph makes the accesses of the walk
      obtain ⟨hcode, hnext⟩ := hlinear.code?_entry
      have hactions := (Graph.actionsAt_of_code? hcode).trans ((List.append_nil _).trans hheld)
      obtain ⟨effects, heffects⟩ := Graph.exists_effects hholds
      obtain ⟨found, hfound, hend, hreads⟩ := flow_of_successors (wellFormed_graph hgraph).toWired
        (program.readsApart hgraph hroles []) heffects hnext program.names hvisits
      have htracks := tracks_of_straight hfunction hstraight hroles hnamed hnames hmoves
      refine ⟨_, found, hgraph, hfound, hend, ?_⟩
      rw [hreads, hactions]
      exact htracks.reads.symm

/-- A block with a variable that hides another one, after which the other one is read. -/
def shadowingTree : Node :=
  sampleNode (.other "program") 0 43 []
    [sampleNode .lexicalDeclaration 0 10 []
      [sampleNode .variableDeclarator 4 9 []
        [sampleNode .identifier 4 5 [.name] [],
          sampleNode (.other "number") 8 9 [.value] []]],
      sampleNode .statementBlock 11 32 []
        [sampleNode .lexicalDeclaration 13 23 []
          [sampleNode .variableDeclarator 17 22 []
            [sampleNode .identifier 17 18 [.name] [],
              sampleNode .identifier 21 22 [.value] []]],
          sampleNode .expressionStatement 24 30 []
            [sampleNode .assignmentExpression 24 29 []
              [sampleNode .identifier 24 25 [.left] [],
                sampleNode (.other "number") 28 29 [.right] []]]],
      sampleNode .lexicalDeclaration 33 43 []
        [sampleNode .variableDeclarator 37 42 []
          [sampleNode .identifier 37 38 [.name] [],
            sampleNode .identifier 41 42 [.value] []]]]

def shadowing : Program :=
  ⟨"let a = 1; { let a = a; a = 2; } let b = a;", .javascript, shadowingTree.number 0,
    shadowingTree.nodup_ids_number 0⟩

theorem namesApart_shadowing : shadowing.NamesApart where
  apart := by decide +kernel
  known := by decide +kernel

/-- The first of the two values is read twice, with one visit. -/
theorem flow_eq_lexical_shadowing : ∃ lexical built found, shadowing.straight = true ∧
    shadowing.lexical = .ok lexical ∧
    lexical.reads.map (fun note => (note.1.start, note.2.map (·.site.start))) =
      [(21, [4]), (41, [4])] ∧
    shadowing.graph = .ok built ∧ shadowing.flow built shadowing.names 1 = .ok found ∧
    found.truncated = false ∧ found.reads = lexical.reads := by
  have hlexical : ∃ lexical, shadowing.lexical = .ok lexical ∧
      lexical.reads.map (fun note => (note.1.start, note.2.map (·.site.start))) =
        [(21, [4]), (41, [4])] := ⟨_, rfl, by decide +kernel⟩
  obtain ⟨lexical, hlexical, hreads⟩ := hlexical
  obtain ⟨built, found, hbuilt, hfound, hend, hsame⟩ := flow_eq_lexical (by decide) (by decide)
    (by decide) namesApart_shadowing hlexical (Nat.le_refl 1)
  exact ⟨lexical, built, found, by decide, hlexical, hreads, hbuilt, hfound, hend, hsame⟩

end Program

end DefUse
