/-
# `Proofs.Dependency.Coverage` — the lexical walk passes over nothing

Two analyses look at one source in two ways.  The lexical one goes through the tree; the
flow analysis goes through the reachable blocks of a graph that may have been rewritten.
Each has its own rules for conditions, for the clauses of a `for` and for returned values.

Wherever the building of the graph stores a node, the lexical walk makes the moves of that
node (`LexicalWalk.holds_ofNode`), and what a block holds was stored when the graph was
built (`Graph.holds_foldl_after`).  So what the lexical walk accepts the flow analysis
accepts too, after any passes, and whatever it reads the lexical walk has read
(`Program.flow_reads_subset_lexical`).  Nothing is said about the assignments they find.

A run that is cut short has fewer notes, not others, so that it makes no difference how
many visits are allowed.
-/
import DefUse.Proofs.Analysis
import DefUse.Proofs.Dependency.Lexical
import DefUse.Proofs.Graph.Holds

namespace DefUse

open DefUse.Tree

/-! ## The tree -/

namespace LexicalWalk

/-- The moves of a simple statement are made. -/
def Runs (all : List Move) (node : Node) : Prop :=
  ∃ part, simpleMoves node = .ok part ∧ part ⊆ all

/-- The moves of an expression that is only read are made. -/
def Reads (all : List Move) (node : Node) : Prop :=
  ∃ part, expressionMoves (some node) = .ok part ∧ part ⊆ all

variable {all found : List Move}

theorem runs_of_declarationMoves {node : Node} (h : declarationMoves node = .ok found)
    (hall : found ⊆ all) : Runs all node := by
  obtain ⟨blanks, part, -, hpart, rfl⟩ := Moves.andThen_eq_ok.mp h
  exact ⟨part, hpart, (List.append_subset.mp hall).2⟩

theorem runs_of_initializerMoves {node : Option Node} (h : initializerMoves node = .ok found)
    (hall : found ⊆ all) : ∀ clause ∈ node, Runs all clause := by
  rintro clause rfl
  rw [initializerMoves] at h
  split at h
  · exact runs_of_declarationMoves h hall
  · exact ⟨found, h, hall⟩

theorem runs_of_incrementMoves {node : Option Node} (h : incrementMoves node = .ok found)
    (hall : found ⊆ all) : ∀ clause ∈ node, Runs all clause := by
  rintro clause rfl
  exact ⟨found, h, hall⟩

theorem reads_of_expressionMoves {node : Option Node} (h : expressionMoves node = .ok found)
    (hall : found ⊆ all) : ∀ expression ∈ node, Reads all expression := by
  rintro expression rfl
  exact ⟨found, h, hall⟩

/-- The condition of a statement is read. -/
theorem reads_condition {node condition : Node}
    (hcondition : Statement.conditionOf node = .ok condition)
    (h : expressionMoves (node.field? .condition) = .ok found) (hall : found ⊆ all) :
    Reads all condition :=
  reads_of_expressionMoves h hall condition (Statement.conditionOf_eq_ok hcondition)

open Statement

mutual

/-- The moves of a node are made for all parts of its statement. -/
theorem holds_ofNode (inLoop : Bool) : ∀ (node : Node) {statement : Statement} {found : List Move},
    ofNode inLoop node = .ok statement → moves node = .ok found → found ⊆ all →
      statement.Holds (Runs all) (Reads all)
  | .mk site children, statement, found, h, hmoves, hall => by
      rw [ofNode] at h
      rw [moves] at hmoves
      generalize site.kind = kind at h hmoves
      split at h
      -- simple statements
      · cases h
        exact ⟨found, hmoves, hall⟩
      · cases h
        exact runs_of_declarationMoves hmoves hall
      · cases h
        exact runs_of_declarationMoves hmoves hall
      · obtain ⟨within, hwithin, rfl⟩ := Moves.framed_eq_ok.mp hmoves
        refine holds_ofNamed inLoop children h hwithin fun move hmove => hall ?_
        exact List.mem_cons_of_mem _ (List.mem_append_left _ hmove)
      -- what does nothing
      · cases h
        trivial
      · cases h
        trivial
      · cases h
        trivial
      -- `if`
      · obtain ⟨condition, hcondition, h⟩ := exists_of_bind_eq_ok h
        obtain ⟨thenArm, hthen, h⟩ := exists_of_bind_eq_ok h
        obtain ⟨elseArm, helse, h⟩ := exists_of_bind_eq_ok h
        cases h
        obtain ⟨tested, arms, htested, harms, rfl⟩ := Moves.andThen_eq_ok.mp hmoves
        obtain ⟨inThen, inElse, hinThen, hinElse, rfl⟩ := Moves.andThen_eq_ok.mp harms
        simp only [List.append_subset] at hall
        obtain ⟨hallTested, hallThen, hallElse⟩ := hall
        exact ⟨reads_condition hcondition htested hallTested,
          holds_ofField inLoop .consequence children hthen hinThen hallThen,
          holds_ofElse inLoop children helse hinElse hallElse⟩
      -- the loops
      · obtain ⟨condition, hcondition, h⟩ := exists_of_bind_eq_ok h
        obtain ⟨body, hbody, h⟩ := exists_of_bind_eq_ok h
        cases h
        obtain ⟨tested, inBody, htested, hinBody, rfl⟩ := Moves.andThen_eq_ok.mp hmoves
        obtain ⟨hallTested, hallBody⟩ := List.append_subset.mp hall
        exact ⟨reads_condition hcondition htested hallTested,
          holds_ofField true .body children hbody hinBody hallBody⟩
      · obtain ⟨condition, hcondition, h⟩ := exists_of_bind_eq_ok h
        obtain ⟨body, hbody, h⟩ := exists_of_bind_eq_ok h
        cases h
        obtain ⟨inBody, tested, hinBody, htested, rfl⟩ := Moves.andThen_eq_ok.mp hmoves
        obtain ⟨hallBody, hallTested⟩ := List.append_subset.mp hall
        exact ⟨reads_condition hcondition htested hallTested,
          holds_ofField true .body children hbody hinBody hallBody⟩
      · obtain ⟨body, hbody, h⟩ := exists_of_bind_eq_ok h
        cases h
        obtain ⟨within, hwithin, rfl⟩ := Moves.framed_eq_ok.mp hmoves
        obtain ⟨ready, round, hready, hround, rfl⟩ := Moves.andThen_eq_ok.mp hwithin
        obtain ⟨tested, done, htested, hdone, rfl⟩ := Moves.andThen_eq_ok.mp hround
        obtain ⟨inBody, next, hinBody, hnext, rfl⟩ := Moves.andThen_eq_ok.mp hdone
        simp only [List.cons_subset, List.append_subset] at hall
        obtain ⟨-, ⟨hallReady, hallTested, hallBody, hallNext⟩, -⟩ := hall
        exact ⟨runs_of_initializerMoves hready hallReady,
          reads_of_expressionMoves htested hallTested, runs_of_incrementMoves hnext hallNext,
          holds_ofField true .body children hbody hinBody hallBody⟩
      -- jumps and `return`
      · obtain ⟨rfl, -⟩ := ofJump_eq_ok h
        trivial
      · obtain ⟨rfl, -⟩ := ofJump_eq_ok h
        trivial
      · cases h
        exact reads_of_expressionMoves hmoves hall
      · cases h

theorem holds_ofNamed (inLoop : Bool) : ∀ (nodes : List Node) {statement : Statement}
    {found : List Move}, ofNamed inLoop nodes = .ok statement → movesNamed nodes = .ok found →
      found ⊆ all → statement.Holds (Runs all) (Reads all)
  | [], statement, found, h, _, _ => by
      cases h
      trivial
  | child :: rest, statement, found, h, hmoves, hall => by
      rw [ofNamed] at h
      rw [movesNamed] at hmoves
      split at h
      · rename_i hnamed
        rw [if_pos hnamed] at hmoves
        obtain ⟨first, hfirst, h⟩ := exists_of_bind_eq_ok h
        obtain ⟨others, hothers, h⟩ := exists_of_bind_eq_ok h
        cases h
        obtain ⟨before, after, hbefore, hafter, rfl⟩ := Moves.andThen_eq_ok.mp hmoves
        obtain ⟨hallBefore, hallAfter⟩ := List.append_subset.mp hall
        exact ⟨holds_ofNode inLoop child hfirst hbefore hallBefore,
          holds_ofNamed inLoop rest hothers hafter hallAfter⟩
      · rename_i hnamed
        rw [if_neg hnamed] at hmoves
        exact holds_ofNamed inLoop rest h hmoves hall

theorem holds_ofField (inLoop : Bool) (field : Field) : ∀ (nodes : List Node)
    {statement : Statement} {found : List Move}, ofField inLoop field nodes = .ok statement →
      movesField field nodes = .ok found → found ⊆ all → statement.Holds (Runs all) (Reads all)
  | [], statement, found, h, _, _ => by
      cases h
      trivial
  | child :: rest, statement, found, h, hmoves, hall => by
      rw [ofField] at h
      rw [movesField] at hmoves
      split at h
      · rename_i hcarries
        rw [if_pos hcarries] at hmoves
        exact holds_ofNode inLoop child h hmoves hall
      · rename_i hcarries
        rw [if_neg hcarries] at hmoves
        exact holds_ofField inLoop field rest h hmoves hall

theorem holds_ofElse (inLoop : Bool) : ∀ (nodes : List Node) {statement : Statement}
    {found : List Move}, ofElse inLoop nodes = .ok statement → movesElse nodes = .ok found →
      found ⊆ all → statement.Holds (Runs all) (Reads all)
  | [], statement, found, h, _, _ => by
      cases h
      trivial
  | child :: rest, statement, found, h, hmoves, hall => by
      rw [ofElse] at h
      rw [movesElse] at hmoves
      split at h
      · rename_i hcarries
        rw [if_pos hcarries] at hmoves
        split at h
        · rename_i hclause
          rw [if_pos hclause] at hmoves
          exact holds_ofClause inLoop child h hmoves hall
        · rename_i hclause
          rw [if_neg hclause] at hmoves
          exact holds_ofNode inLoop child h hmoves hall
      · rename_i hcarries
        rw [if_neg hcarries] at hmoves
        exact holds_ofElse inLoop rest h hmoves hall

theorem holds_ofClause (inLoop : Bool) : ∀ (node : Node) {statement : Statement}
    {found : List Move}, ofClause inLoop node = .ok statement → movesClause node = .ok found →
      found ⊆ all → statement.Holds (Runs all) (Reads all)
  | .mk _ children, _, _, h, hmoves, hall =>
      holds_ofFirst inLoop children h hmoves hall

theorem holds_ofFirst (inLoop : Bool) : ∀ (nodes : List Node) {statement : Statement}
    {found : List Move}, ofFirst inLoop nodes = .ok statement → movesFirst nodes = .ok found →
      found ⊆ all → statement.Holds (Runs all) (Reads all)
  | [], statement, found, h, _, _ => by
      cases h
      trivial
  | child :: rest, statement, found, h, hmoves, hall => by
      rw [ofFirst] at h
      rw [movesFirst] at hmoves
      split at h
      · rename_i hcontent
        rw [if_pos hcontent] at hmoves
        exact holds_ofNode inLoop child h hmoves hall
      · rename_i hcontent
        rw [if_neg hcontent] at hmoves
        exact holds_ofFirst inLoop rest h hmoves hall

end

/-! ## Blocks -/

theorem Runs.mem {node : Node} (h : Runs all node) {action : Action}
    (haction : action ∈ statementActions node) : .act action ∈ all := by
  obtain ⟨part, hpart, hall⟩ := h
  obtain ⟨steps, hsteps, h⟩ := exists_of_bind_eq_ok hpart
  cases h
  rw [statementActions, hsteps] at haction
  exact hall (List.mem_map_of_mem haction)

theorem Reads.mem {node : Node} (h : Reads all node) {action : Action}
    (haction : action ∈ expressionActions node) : .act action ∈ all := by
  obtain ⟨part, hpart, hall⟩ := h
  obtain ⟨sites, hsites, h⟩ := exists_of_bind_eq_ok hpart
  cases h
  have hreads : DefUse.reads node = .ok sites := hsites
  rw [expressionActions, hreads] at haction
  obtain ⟨site, hsite, rfl⟩ := List.mem_map.mp haction
  exact hall (List.mem_map_of_mem hsite)

/-- What a block does is done by moves of the walk. -/
theorem mem_of_actions {code : Code} (h : code.Holds (Runs all) (Reads all)) {action : Action}
    (haction : action ∈ code.actions) : .act action ∈ all := by
  rcases List.mem_append.mp haction with haction | haction
  · obtain ⟨statement, hstatement, haction⟩ := List.mem_flatMap.mp haction
    exact (h.statements statement hstatement).mem haction
  · obtain ⟨expression, hexpression, haction⟩ := List.mem_flatMap.mp haction
    exact (h.exit expression (Option.mem_toList.mp hexpression)).mem haction

/-- A block whose parts the walk accepts has effects. -/
theorem exists_effects {block : Block} (h : block.code.Holds (Runs all) (Reads all)) :
    ∃ found, block.effects = .ok found := by
  have hsteps : ∃ steps, block.statements.mapM effects = .ok steps := by
    refine exists_mapM_iff.mpr fun statement hstatement => ?_
    obtain ⟨part, hpart, -⟩ := h.statements statement hstatement
    obtain ⟨steps, hsteps, -⟩ := exists_of_bind_eq_ok hpart
    exact ⟨steps, hsteps⟩
  have hsites : ∃ sites, readsOf? block.exit.expression? = .ok sites := by
    cases hexpression : block.exit.expression? with
    | none => exact ⟨[], rfl⟩
    | some expression =>
        obtain ⟨part, hpart, -⟩ := h.exit expression hexpression
        obtain ⟨sites, hsites, -⟩ := exists_of_bind_eq_ok hpart
        exact ⟨sites, hsites⟩
  obtain ⟨steps, hsteps⟩ := hsteps
  obtain ⟨sites, hsites⟩ := hsites
  exact exists_bind_iff.mpr ⟨steps, hsteps, exists_bind_iff.mpr ⟨sites, hsites, _, rfl⟩⟩

end LexicalWalk

theorem Graph.exists_effects {graph : Graph} {all : List LexicalWalk.Move}
    (h : graph.Holds (LexicalWalk.Runs all) (LexicalWalk.Reads all)) :
    ∃ found, graph.effects = .ok found := by
  refine exists_mapM_iff.mpr fun block hblock => ?_
  obtain ⟨id, -, hblock⟩ := List.mem_filterMap.mp hblock
  obtain ⟨found, hfound⟩ := LexicalWalk.exists_effects (h id block.code (code?_of_block? hblock))
  exact exists_bind_iff.mpr ⟨found, hfound, _, rfl⟩

/-! ## Which reads are noted -/

/-- The reads that are noted. -/
def ReadMap.sites (map : ReadMap) : List Site :=
  map.map Prod.fst

theorem ReadMap.mem_sites_record {map : ReadMap} {site read : Site} {reaching : List Assignment} :
    site ∈ (map.record read reaching).sites ↔ site = read ∨ site ∈ map.sites := by
  induction map with
  | nil => simp [record, sites]
  | cons entry rest ih =>
      have hcons : ∀ (entry : Site × List Assignment) (rest : ReadMap),
          site ∈ ReadMap.sites (entry :: rest) ↔ site = entry.1 ∨ site ∈ ReadMap.sites rest :=
        fun entry rest => List.mem_cons
      rw [record]
      split
      · rename_i heq
        rw [hcons, hcons, heq, or_self_left]
      · split
        · rw [hcons]
        · rw [hcons, hcons, ih, or_left_comm]

/-- The lexical walk notes what it reads. -/
theorem LexicalWalk.mem_sites_foldl {program : Program} {site : Site} (moves : List Move)
    (walk : LexicalWalk) : site ∈ (moves.foldl (take program) walk).reads.sites ↔
      .act (.read site) ∈ moves ∨ site ∈ walk.reads.sites := by
  induction moves generalizing walk with
  | nil => simp
  | cons move rest ih =>
      rw [List.foldl_cons, ih, List.mem_cons]
      have hmove : site ∈ (walk.take program move).reads.sites ↔
          .act (.read site) = move ∨ site ∈ walk.reads.sites := by
        rcases move with _ | _ | _ | (read | assignment)
        · simp [take, push]
        · simp [take, pop]
        · simp [take]
        · rw [take, LexicalWalk.read]
          simp [ReadMap.mem_sites_record]
        · rw [take, LexicalWalk.write]
          split
          · simp
          · split <;> simp
      rw [hmove]
      tauto

/-- So does the way through a block. -/
theorem Passage.mem_sites_foldl {program : Program} {names : Names} {site : Site}
    (actions : List Action) (passage : Passage) :
    site ∈ (actions.foldl (act program names) passage).reads.sites ↔
      .read site ∈ actions ∨ site ∈ passage.reads.sites := by
  induction actions generalizing passage with
  | nil => simp
  | cons action rest ih =>
      rw [List.foldl_cons, ih, List.mem_cons]
      cases action with
      | read read =>
          rw [act, Passage.read, ReadMap.mem_sites_record, Action.read.injEq]
          tauto
      | write assignment =>
          rw [act, reads_write]
          simp

/-- What a run notes is read by a block. -/
theorem Flow.exists_of_mem_sites_run {problem : FlowProblem} {maxVisits : Nat} {queue : Queue}
    {site : Site} (h : site ∈ (run problem maxVisits queue start).reads.sites) :
    ∃ entry ∈ problem.effects, .read site ∈ entry.2.actions := by
  obtain ⟨-, last, hlast, hreads⟩ := exists_reads_run problem maxVisits
    (P := fun _ flow => ∀ site ∈ flow.reads.sites,
      ∃ entry ∈ problem.effects, Action.read site ∈ entry.2.actions)
    (fun _ _ _ _ h _ => h)
    (by
      intro id incoming _ flow h site hsite
      have hpassage : site ∈ (flow.passage problem id incoming).reads.sites := hsite
      rw [passage] at hpassage
      split at hpassage
      · rename_i effects hlookup
        rw [Passage.through_eq, Passage.mem_sites_foldl] at hpassage
        rcases hpassage with hread | hold
        · obtain ⟨front, back, heq, -⟩ := List.lookup_eq_some_iff.mp hlookup
          exact ⟨(id, effects), heq ▸ List.mem_append_right _ List.mem_cons_self, hread⟩
        · exact h site hold
      · exact h site hpassage)
    queue start nofun
  rw [hreads] at h
  exact hlast site h

/-! ## Programs -/

namespace Program

variable {program : Program} {built : Graph} {lexical : Dependencies}

/-- What the walk through a program accepts stands in all blocks of its graph. -/
theorem holds_graph {found : List LexicalWalk.Move} (hgraph : program.graph = .ok built)
    (hmoves : program.lexicalMoves = .ok found) (passes : List Pass) :
    (passes.foldl Graph.after built).Holds (LexicalWalk.Runs found) (LexicalWalk.Reads found) := by
  have hwf := wellFormed_graph hgraph
  obtain ⟨statement, hstatement, rfl⟩ := statement_of_graph hgraph
  have hparts := LexicalWalk.holds_ofNamed false _ hstatement hmoves (List.Subset.refl found)
  exact Graph.holds_foldl_after hwf (Statement.holds_graph hparts).setParents passes

/-- The lexical analysis accepts no more than the flow analysis, and misses none of its reads:
after any passes, with any names and any bound on visits, the flow analysis succeeds, and what it
notes is noted in the lexical dependencies. -/
theorem flow_reads_subset_lexical (hgraph : program.graph = .ok built)
    (hlexical : program.lexical = .ok lexical) (passes : List Pass) (names : Names)
    (maxVisits : Nat) :
    ∃ graph found, passes.foldlM Graph.apply built = .ok graph ∧
      program.flow graph names maxVisits = .ok found ∧
      found.reads.map Prod.fst ⊆ lexical.reads.map Prod.fst := by
  rw [lexical_eq] at hlexical
  cases hmoves : program.lexicalMoves with
  | error e =>
      rw [hmoves] at hlexical
      cases hlexical
  | ok moves =>
      rw [hmoves] at hlexical
      cases hlexical
      have hholds := holds_graph hgraph hmoves passes
      obtain ⟨effects, heffects⟩ := Graph.exists_effects hholds
      refine ⟨_, _, ((wellFormed_graph hgraph).foldlM_apply passes).1,
        by rw [flow, heffects]; rfl, ?_⟩
      intro site hsite
      obtain ⟨⟨id, effects⟩, hentry, hread⟩ := Flow.exists_of_mem_sites_run hsite
      obtain ⟨block, hblock, hok⟩ := exists_of_mem_mapM heffects hentry
      obtain ⟨key, -, hkey⟩ := List.mem_filterMap.mp hblock
      obtain ⟨found, hfound, hpair⟩ := exists_of_bind_eq_ok hok
      cases hpair
      rw [Block.actions_of_effects hfound] at hread
      refine (LexicalWalk.mem_sites_foldl moves .start).mpr (.inl ?_)
      exact LexicalWalk.mem_of_actions (hholds key block.code (Graph.code?_of_block? hkey)) hread

theorem lexical_sample : ∃ lexical, sample.lexical = .ok lexical ∧ lexical.reads ≠ [] :=
  ⟨_, rfl, by decide⟩

theorem flow_reads_subset_lexical_sample : ∃ built lexical graph found,
    sample.graph = .ok built ∧ sample.lexical = .ok lexical ∧ lexical.reads ≠ [] ∧
    [.emptyJumps, .mergeChains].foldlM Graph.apply built = .ok graph ∧
    sample.flow graph sample.names 1 = .ok found ∧
    found.reads.map Prod.fst ⊆ lexical.reads.map Prod.fst := by
  obtain ⟨built, hbuilt⟩ := graph_sample
  obtain ⟨lexical, hlexical, hreads⟩ := lexical_sample
  obtain ⟨graph, found, hgraph, hfound, hsubset⟩ :=
    flow_reads_subset_lexical hbuilt hlexical [.emptyJumps, .mergeChains] sample.names 1
  exact ⟨built, lexical, graph, found, hbuilt, hlexical, hreads, hgraph, hfound, hsubset⟩

end Program

end DefUse
