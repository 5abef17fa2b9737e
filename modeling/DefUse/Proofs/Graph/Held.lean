/-
# `Proofs.Graph.Held` — every piece of a program stands in one place of its graph

The graph of a statement holds the nodes that the statement holds
(`Statement.perm_held_graph`): adding a statement puts each of its nodes into one block,
and the exits that are copied on the way hold nothing.  No pass adds a node or makes a
second copy of one (`Graph.held_foldl_after`): where code is copied, the block it came
from is out of reach afterwards.

So, whatever passes were run over the graph of a program, its reachable blocks hold parts
of the source that do not overlap (`Program.held_graph`): no node is held twice, and only
the settling of branches makes a node disappear (`Program.held_passes`).
-/
import Mathlib.Data.List.Range
import DefUse.Proofs.Graph.Build
import DefUse.Proofs.Graph.Gather
import DefUse.Proofs.Statement

namespace DefUse

open DefUse.Tree
open scoped List

/-- The statements, and the expression of the exit. -/
def Code.held (code : Code) : List Node :=
  code.statements ++ code.exit.expression?.toList

@[simp] theorem Code.held_jump (statements : List Node) (next : BlockId) :
    (Code.mk statements (.jump next)).held = statements :=
  List.append_nil _

@[simp] theorem Exit.expression?_forCondition (condition : Option Node) (onTrue onFalse : BlockId) :
    (Exit.branch (Draft.forCondition condition) onTrue onFalse).expression? = condition := by
  cases condition <;> rfl

@[simp] theorem Exit.expression?_ret (value : Option Node) :
    (Exit.ret value).expression? = value := by
  cases value <;> rfl

namespace Graph

/-- What a block holds. -/
def heldAt (graph : Graph) (id : BlockId) : List Node :=
  match graph.code? id with
  | some code => code.held
  | none => []

/-- What the reachable blocks hold. -/
def held (graph : Graph) : List Node :=
  graph.order.flatMap graph.heldAt

/-- What all blocks hold. -/
def allHeld (graph : Graph) : List Node :=
  (List.range graph.blocks.size).flatMap graph.heldAt

variable {graph other : Graph}

theorem heldAt_of_code? {id : BlockId} {code : Code} (h : graph.code? id = some code) :
    graph.heldAt id = code.held :=
  gatherAt_of_code? h

theorem heldAt_congr {id : BlockId} (h : graph.code? id = other.code? id) :
    graph.heldAt id = other.heldAt id :=
  gatherAt_congr h

theorem held_subperm_allHeld (graph : Graph) : graph.held <+~ graph.allHeld :=
  Node.subperm_flatMap (order_subperm fun _ hid => List.mem_range.mpr hid.lt) _

end Graph

/-! ## The graph of a statement -/

namespace Draft

variable {draft : Draft} {graph : Graph} {codes : List Code}

/-- The exit that is handed on holds nothing. -/
def Bare (draft : Draft) : Prop :=
  draft.pending.expression? = none

theorem heldAt_current (hbare : draft.Bare) {code : Code}
    (hcode : draft.graph.code? draft.current = some code) :
    draft.graph.heldAt draft.current = code.statements := by
  have hexit : code.exit.expression? = none := by
    rw [← Graph.exitOf_of_code? hcode]
    exact hbare
  rw [Graph.heldAt_of_code? hcode, Code.held, hexit]
  exact List.append_nil _

theorem held_pending (hbare : draft.Bare) : (Code.mk [] draft.pending).held = [] := by
  rw [Code.held, hbare]
  rfl

theorem perm_append (hcurrent : draft.current < draft.fresh) (hbare : draft.Bare)
    (statements : List Node) :
    (draft.graph.append draft.current statements).allHeld ~
      draft.graph.allHeld ++ statements := by
  obtain ⟨code, hcode⟩ := Graph.code?_of_lt hcurrent
  rw [Graph.allHeld, Graph.size_append]
  refine Graph.perm_flatMap_of_more List.nodup_range (List.mem_range.mpr hcurrent) ?_ ?_
  · intro other _ hne
    refine Graph.heldAt_congr ?_
    rw [Graph.code?_append, if_neg (Ne.symm hne)]
  · have hnew := Graph.code?_append draft.graph draft.current draft.current statements
    rw [if_pos rfl, hcode] at hnew
    have hexit : code.exit.expression? = none := by
      rw [← Graph.exitOf_of_code? hcode]
      exact hbare
    rw [Graph.heldAt_of_code? hnew, heldAt_current hbare hcode, Code.held, hexit]
    exact List.Perm.of_eq (List.append_nil _)

/-- New blocks hold what their codes hold, and the current block its new exit. -/
theorem Opens.perm_held {exit : Exit} (h : draft.Opens graph exit codes)
    (hcurrent : draft.current < draft.fresh) (hbare : draft.Bare) :
    graph.allHeld ~
      draft.graph.allHeld ++ (exit.expression?.toList ++ codes.flatMap Code.held) := by
  have hnew : ((List.range codes.length).map (draft.fresh + ·)).flatMap graph.heldAt =
      codes.flatMap Code.held := by
    have hat : ∀ i, graph.heldAt (draft.fresh + i) = (codes[i]?.map Code.held).getD [] := by
      intro i
      rw [Graph.heldAt, h.new i]
      cases codes[i]? <;> rfl
    rw [List.flatMap_map]
    simp only [hat]
    exact Graph.flatMap_range_getElem? codes Code.held
  have hold : (List.range draft.fresh).flatMap graph.heldAt ~
      draft.graph.allHeld ++ exit.expression?.toList := by
    refine Graph.perm_flatMap_of_more List.nodup_range (List.mem_range.mpr hcurrent) ?_ ?_
    · intro other hother hne
      exact Graph.heldAt_congr (h.old other (List.mem_range.mp hother) hne)
    · obtain ⟨code, hcode⟩ := Graph.code?_of_lt hcurrent
      have hcurrent' := h.current
      rw [hcode] at hcurrent'
      rw [Graph.heldAt_of_code? hcurrent', heldAt_current hbare hcode]
      exact List.Perm.refl _
  rw [Graph.allHeld, h.size, List.range_add, List.flatMap_append, hnew, ← List.append_assoc]
  exact hold.append_right _

/-- Adding the statement adds what it holds. -/
def Adds (statement : Statement) : Prop :=
  ∀ (loop : Option LoopTargets) (draft : Draft), draft.current < draft.fresh → draft.Bare →
    (add statement loop draft).graph.allHeld ~ draft.graph.allHeld ++ statement.held

theorem bare_of_jump {id target : BlockId} {statements : List Node}
    (h : graph.code? id = some ⟨statements, .jump target⟩) : (Draft.mk graph id).Bare := by
  show (graph.exitOf id).expression? = none
  rw [Graph.exitOf_of_code? h]
  rfl

/-- A loop holds what its blocks hold, and its body. -/
theorem Adds.loop {body : Statement} (h : Adds body) (codes : List Code) {targets : LoopTargets}
    {exit : Exit} {target : BlockId}
    (hopen : draft.Opens graph exit (⟨[], draft.pending⟩ :: (codes ++ [⟨[], .jump target⟩])))
    (hexit : exit.expression? = none) (hcurrent : draft.current < draft.fresh)
    (hbare : draft.Bare) :
    (add body (some targets) ⟨graph, draft.fresh + (codes.length + 1)⟩).graph.allHeld ~
      draft.graph.allHeld ++ (codes.flatMap Code.held ++ body.held) := by
  have hinner : graph.code? (draft.fresh + (codes.length + 1)) = some ⟨[], .jump target⟩ := by
    rw [hopen.new, List.getElem?_cons_succ, List.getElem?_concat_length]
  have hlast := hopen.lt (codes.length + 1) (by simp)
  refine (h (some targets) ⟨graph, _⟩ hlast (bare_of_jump hinner)).trans ?_
  refine ((hopen.perm_held hcurrent hbare).append_right _).trans ?_
  refine List.Perm.of_eq ?_
  simp [hexit, held_pending hbare]

/-- Each node of a statement is put into one block. -/
theorem perm_add (statement : Statement) : Adds statement := by
  induction statement with
  | skip =>
      intro loop draft _ _
      exact List.Perm.of_eq (List.append_nil _).symm
  | simple node =>
      intro loop draft hcurrent hbare
      exact perm_append hcurrent hbare [node]
  | seq first second ihFirst ihSecond =>
      intro loop draft hcurrent hbare
      have hfirst := extends_add first loop draft hcurrent
      have hbare' : (add first loop draft).Bare := by
        rw [Bare, hfirst.pending]
        exact hbare
      refine (ihSecond loop _ hfirst.current_lt hbare').trans ?_
      rw [Statement.held, ← List.append_assoc]
      exact (ihFirst loop draft hcurrent hbare).append_right _
  | ifElse condition thenArm elseArm ihThen ihElse =>
      intro loop draft hcurrent hbare
      have hopen := opens_openIf hcurrent condition
      have hone := hopen.lt 1 (by simp)
      have htwo := hopen.lt 2 (by simp)
      have hthen := extends_add thenArm loop ⟨draft.openIf condition, draft.fresh + 1⟩ hone
      have htwo' := Nat.lt_of_lt_of_le htwo hthen.fresh
      have helseBlock := (hthen.frame (draft.fresh + 2) htwo (by show _ ≠ draft.fresh + 1; lia)).trans
        (hopen.new 2)
      have hopened : (draft.openIf condition).allHeld ~ draft.graph.allHeld ++ [condition] := by
        refine (hopen.perm_held hcurrent hbare).trans (List.Perm.of_eq ?_)
        simp [held_pending hbare, Exit.expression?]
      refine (ihElse loop ⟨_, draft.fresh + 2⟩ htwo' (bare_of_jump helseBlock)).trans ?_
      refine ((ihThen loop ⟨_, draft.fresh + 1⟩ hone (bare_of_jump (hopen.new 1))).append_right
        _).trans ?_
      refine ((hopened.append_right _).append_right _).trans (List.Perm.of_eq ?_)
      simp [Statement.held]
  | whileLoop condition body ih =>
      intro loop draft hcurrent hbare
      exact ih.loop [_] (opens_openWhile hcurrent condition) rfl hcurrent hbare
  | doLoop condition body ih =>
      intro loop draft hcurrent hbare
      exact ih.loop [_] (opens_openDo hcurrent condition) rfl hcurrent hbare
  | forLoop initializer condition increment body ih =>
      intro loop draft hcurrent hbare
      refine (ih.loop [_, _, _] (opens_openFor hcurrent initializer condition increment) rfl
        hcurrent hbare).trans (List.Perm.append_left _ ?_)
      -- the test comes before the initializer among the blocks, and after it in the source
      simp only [List.flatMap_cons, List.flatMap_nil, Code.held, Exit.expression?_forCondition,
        List.nil_append, List.append_nil, List.append_assoc, Statement.held]
      rw [← List.append_assoc, ← List.append_assoc initializer.toList]
      exact List.perm_append_comm.append_right _
  | jump jump =>
      intro loop draft hcurrent hbare
      cases loop with
      | none => exact List.Perm.of_eq (List.append_nil _).symm
      | some targets =>
          refine ((opens_cut hcurrent _).perm_held hcurrent hbare).trans (List.Perm.of_eq ?_)
          simp [held_pending hbare, Statement.held, Exit.expression?]
  | ret value =>
      intro loop draft hcurrent hbare
      refine ((opens_cut hcurrent fun _ => .ret value).perm_held hcurrent hbare).trans
        (List.Perm.of_eq ?_)
      simp [held_pending hbare, Statement.held]

end Draft

/-- The graph of a statement holds what the statement holds. -/
theorem Statement.perm_held_graph (statement : Statement) :
    statement.graph.allHeld ~ statement.held :=
  Draft.perm_add statement none Draft.start Draft.current_start rfl

/-! ## Passes -/

theorem Code.additive_held : Code.Additive Code.held where
  nil := fun _ => rfl
  append := by
    intro statements more exit next
    rw [Code.held_jump, Code.held, Code.held, List.append_assoc]
  retarget := by
    intro statements exit old new
    rw [Code.held, Code.held, Exit.expression?_retarget]

theorem Code.additive_statements : Code.Additive Code.statements where
  nil := fun _ => rfl
  append := fun _ _ _ _ => rfl
  retarget := fun _ _ _ _ => rfl

namespace Graph

variable {graph : Graph}

theorem perm_held_setParents (graph : Graph) : graph.setParents.held ~ graph.held :=
  perm_gather_setParents Code.held graph

/-- Settling a branch takes away what is held out of reach then, and the condition. -/
theorem held_settleAll (hwired : graph.Wired) : graph.settleAll.held <+~ graph.held := by
  have hids : graph.settleAll.order <+~ graph.order :=
    order_subperm fun id hid => mem_order.mpr (reachable_settleAll hwired hid)
  refine List.Subperm.trans (List.Sublist.subperm (List.Sublist.flatMap_right _ ?_))
    (Node.subperm_flatMap hids _)
  intro id _
  rw [heldAt, heldAt, code?_settleAll]
  cases graph.code? id with
  | none => exact List.Sublist.refl _
  | some code =>
      simp only [Option.map_some]
      split
      · refine List.Sublist.append_left ?_ _
        show code.exit.settle.expression?.toList <+ code.exit.expression?.toList
        cases code.exit with
        | branch condition onTrue onFalse =>
            rw [Exit.settle]
            split
            · exact List.nil_sublist _
            · exact List.Sublist.refl _
        | ret value => exact List.Sublist.refl _
        | jump next => exact List.Sublist.refl _
        | unset => exact List.Sublist.refl _
      · exact List.Sublist.refl _

/-- No pass adds anything to what the reachable blocks hold. -/
theorem held_after (h : graph.WellFormed) (pass : Pass) :
    (graph.after pass).held <+~ graph.held := by
  by_cases hpass : pass = .trueBranches
  · subst hpass
    exact (perm_held_setParents _).subperm.trans (held_settleAll h.toWired)
  · exact (perm_gather_after Code.additive_held h hpass).subperm

/-- Nor does a sequence of passes. -/
theorem held_foldl_after (h : graph.WellFormed) (passes : List Pass) :
    (passes.foldl after graph).held <+~ graph.held := by
  induction passes generalizing graph with
  | nil => exact List.Subperm.refl _
  | cons pass rest ih => exact (ih (h.apply pass).2).trans (held_after h pass)

end Graph

namespace Program

variable {program : Program} {built : Graph}

/-- Whatever passes were run, the reachable blocks hold parts of the tree that do not
overlap. -/
theorem held_graph (h : program.graph = .ok built) (hroles : program.SingleRoles)
    (passes : List Pass) :
    (passes.foldl Graph.after built).held.flatMap Node.nodes <+~
      Node.nodesAll program.root.children := by
  obtain ⟨statement, hstatement, rfl⟩ := statement_of_graph h
  have hbuilt : statement.graph.setParents.held <+~ statement.held :=
    (Graph.perm_held_setParents _).subperm.trans
      ((Graph.held_subperm_allHeld _).trans statement.perm_held_graph.subperm)
  have hheld := (Graph.held_foldl_after statement.wired_graph.setParents passes).trans hbuilt
  exact (Node.subperm_flatMap hheld Node.nodes).trans (held_statement hroles hstatement)

/-- So no node is held twice. -/
theorem nodup_held (h : program.graph = .ok built) (hroles : program.SingleRoles)
    (passes : List Pass) :
    ((passes.foldl Graph.after built).held.map fun node => node.site.id).Nodup := by
  have hheld := (Node.sublist_flatMap_nodes _).subperm.trans (held_graph h hroles passes)
  obtain ⟨ids, hperm, hsublist⟩ := Node.subperm_map hheld fun node => node.site.id
  exact hperm.nodup (program.nodup_ids.sublist hsublist)

/-- Nothing is lost or doubled: after any passes no node is held twice by the reachable blocks, and
one pass more keeps what they hold and how many statements there are, unless it settles branches,
which can only take away. -/
theorem held_passes (h : program.graph = .ok built) (hroles : program.SingleRoles)
    (passes : List Pass) :
    ∃ graph, passes.foldlM Graph.apply built = .ok graph ∧
      ((graph.reachable.flatMap Block.held).map fun node => node.site.id).Nodup ∧
      ∀ pass, ∃ next, graph.apply pass = .ok next ∧
        next.reachable.flatMap Block.held <+~ graph.reachable.flatMap Block.held ∧
        (pass ≠ .trueBranches →
          next.reachable.flatMap Block.held ~ graph.reachable.flatMap Block.held ∧
          next.statementCount = graph.statementCount) := by
  obtain ⟨hok, hwf⟩ := (wellFormed_graph h).foldlM_apply passes
  have hheld : ∀ graph : Graph, graph.reachable.flatMap Block.held = graph.held :=
    fun graph => (Graph.gather_eq Code.held graph).symm
  have hcount : ∀ graph : Graph, graph.statementCount = (graph.gather Code.statements).length := by
    intro graph
    rw [Graph.gather_eq]
    rfl
  refine ⟨_, hok, ?_, ?_⟩
  · rw [hheld]
    exact nodup_held h hroles passes
  · intro pass
    refine ⟨_, (hwf.apply pass).1, ?_, ?_⟩
    · rw [hheld, hheld]
      exact Graph.held_after hwf pass
    · intro hpass
      rw [hheld, hheld, hcount, hcount]
      exact ⟨Graph.perm_gather_after Code.additive_held hwf hpass,
        (Graph.perm_gather_after Code.additive_statements hwf hpass).length_eq⟩

theorem held_passes_sample : ∃ built graph, sample.SingleRoles ∧ sample.graph = .ok built ∧
    [.split, .mergeChains].foldlM Graph.apply built = .ok graph ∧
    ((graph.reachable.flatMap Block.held).map fun node => node.site.id).Nodup ∧
    ∃ next, graph.apply .emptyJumps = .ok next ∧
      next.reachable.flatMap Block.held ~ graph.reachable.flatMap Block.held ∧
      next.statementCount = graph.statementCount := by
  have hroles : sample.SingleRoles := by decide
  obtain ⟨built, hbuilt⟩ := graph_sample
  obtain ⟨graph, hgraph, hnodup, hnext⟩ := held_passes hbuilt hroles [.split, .mergeChains]
  obtain ⟨next, happly, -, hkept⟩ := hnext .emptyJumps
  exact ⟨built, graph, hroles, hbuilt, hgraph, hnodup, next, happly, hkept (by decide)⟩

end Program

end DefUse
