/-
# `Proofs.Graph.Holds` — what all parts of a program have, all blocks have

A graph holds two kinds of nodes: the statements of its blocks, which run, and the
expressions of its exits, which are only read.  Something may be asked of each kind.  If
a statement has it in all its parts (`Statement.Holds`), then so has its graph
(`Statement.holds_graph`), in every block, reachable or not; and no pass takes it away
(`Graph.holds_foldl_after`), since passes move nodes and make none.

This is weaker than `Program.held_graph`, which counts the nodes, and needs less: nothing
has to be known about the roles in the tree.
-/
import DefUse.Proofs.Graph.Held

namespace DefUse

open DefUse.Tree

variable {S E : Node → Prop}

/-- The simple statements have `S`, and what is only read has `E`. -/
def Statement.Holds (S E : Node → Prop) : Statement → Prop
  | skip | jump _ => True
  | simple node => S node
  | seq first second => first.Holds S E ∧ second.Holds S E
  | ifElse condition thenArm elseArm => E condition ∧ thenArm.Holds S E ∧ elseArm.Holds S E
  | whileLoop condition body | doLoop condition body => E condition ∧ body.Holds S E
  | forLoop initializer condition increment body =>
    (∀ node ∈ initializer, S node) ∧ (∀ node ∈ condition, E node) ∧
      (∀ node ∈ increment, S node) ∧ body.Holds S E
  | ret value => ∀ node ∈ value, E node

/-- The statements have `S`, and what the exit reads has `E`. -/
structure Code.Holds (S E : Node → Prop) (code : Code) : Prop where
  statements : ∀ node ∈ code.statements, S node
  exit : ∀ node ∈ code.exit.expression?, E node

theorem Exit.forall_mem_jump (next : BlockId) : ∀ node ∈ (Exit.jump next).expression?, E node := by
  intro node h
  cases h

theorem Code.holds_jump {statements : List Node} (h : ∀ node ∈ statements, S node)
    (next : BlockId) : Code.Holds S E ⟨statements, .jump next⟩ :=
  ⟨h, Exit.forall_mem_jump next⟩

/-- All blocks of the graph have it. -/
def Graph.Holds (S E : Node → Prop) (graph : Graph) : Prop :=
  ∀ id code, graph.code? id = some code → code.Holds S E

/-! ## The graph of a statement -/

namespace Draft

variable {draft : Draft} {graph : Graph} {codes : List Code}

theorem holds_pending (h : draft.graph.Holds S E) (hcurrent : draft.current < draft.fresh) :
    Code.Holds S E ⟨[], draft.pending⟩ := by
  obtain ⟨code, hcode⟩ := Graph.code?_of_lt hcurrent
  refine ⟨List.forall_mem_nil S, ?_⟩
  rw [pending, Graph.exitOf_of_code? hcode]
  exact (h _ code hcode).exit

theorem holds_append (h : draft.graph.Holds S E) {statements : List Node}
    (hstatements : ∀ node ∈ statements, S node) :
    (draft.graph.append draft.current statements).Holds S E := by
  intro id code hcode
  rw [Graph.code?_append] at hcode
  split at hcode
  · obtain ⟨old, hold, rfl⟩ := Option.map_eq_some_iff.mp hcode
    refine ⟨?_, (h id old hold).exit⟩
    intro node hnode
    rcases List.mem_append.mp hnode with hnode | hnode
    · exact (h id old hold).statements node hnode
    · exact hstatements node hnode
  · exact h id code hcode

/-- New blocks that have it, and a new exit that has it, leave no block without it. -/
theorem Opens.holds {exit : Exit} (hopen : draft.Opens graph exit (⟨[], draft.pending⟩ :: codes))
    (hcurrent : draft.current < draft.fresh) (h : draft.graph.Holds S E)
    (hexit : ∀ node ∈ exit.expression?, E node) (hcodes : ∀ code ∈ codes, code.Holds S E) :
    graph.Holds S E := by
  intro id code hcode
  by_cases hid : id < draft.fresh
  · by_cases heq : id = draft.current
    · subst heq
      rw [hopen.current] at hcode
      obtain ⟨old, hold, rfl⟩ := Option.map_eq_some_iff.mp hcode
      exact ⟨(h _ old hold).statements, hexit⟩
    · rw [hopen.old id hid heq] at hcode
      exact h id code hcode
  · obtain ⟨i, rfl⟩ := Nat.exists_eq_add_of_le (Nat.le_of_not_lt hid)
    rw [hopen.new i] at hcode
    rcases List.mem_cons.mp (List.mem_of_getElem? hcode) with rfl | hmem
    · exact holds_pending h hcurrent
    · exact hcodes code hmem

theorem holds_cut (hcurrent : draft.current < draft.fresh) (h : draft.graph.Holds S E)
    {exit : BlockId → Exit} (hexit : ∀ node ∈ (exit draft.fresh).expression?, E node) :
    (draft.cut exit).graph.Holds S E :=
  (opens_cut hcurrent exit).holds hcurrent h hexit (List.forall_mem_nil _)

/-- Adding a statement that has it keeps it. -/
theorem holds_add (statement : Statement) (hstatement : statement.Holds S E) :
    ∀ (loop : Option LoopTargets) (draft : Draft), draft.current < draft.fresh →
      draft.graph.Holds S E → (add statement loop draft).graph.Holds S E := by
  induction statement with
  | skip => exact fun _ _ _ h => h
  | simple node =>
      intro loop draft _ h
      refine holds_append h ?_
      intro other hother
      cases List.mem_singleton.mp hother
      exact hstatement
  | seq first second ihFirst ihSecond =>
      intro loop draft hcurrent h
      obtain ⟨hfirst, hsecond⟩ := hstatement
      exact ihSecond hsecond loop _ (extends_add first loop draft hcurrent).current_lt
        (ihFirst hfirst loop draft hcurrent h)
  | ifElse condition thenArm elseArm ihThen ihElse =>
      intro loop draft hcurrent h
      obtain ⟨hcondition, hthen, helse⟩ := hstatement
      have hopen := opens_openIf hcurrent condition
      have hone := hopen.lt 1 (by simp)
      have htwo := hopen.lt 2 (by simp)
      have hopened : (draft.openIf condition).Holds S E := by
        refine hopen.holds hcurrent h (by simpa [Exit.expression?] using hcondition) ?_
        simp [Code.holds_jump]
      have hextends := extends_add thenArm loop ⟨draft.openIf condition, draft.fresh + 1⟩ hone
      exact ihElse helse loop _ (Nat.lt_of_lt_of_le htwo hextends.fresh)
        (ihThen hthen loop _ hone hopened)
  | whileLoop condition body ih =>
      intro loop draft hcurrent h
      obtain ⟨hcondition, hbody⟩ := hstatement
      have hopen := opens_openWhile hcurrent condition
      refine ih hbody _ _ (hopen.lt 2 (by simp))
        (hopen.holds hcurrent h (Exit.forall_mem_jump _) ?_)
      have htest : Code.Holds S E
          ⟨[], .branch (.test condition) (draft.fresh + 2) draft.fresh⟩ :=
        ⟨List.forall_mem_nil S, by simpa [Exit.expression?] using hcondition⟩
      simp [htest, Code.holds_jump]
  | doLoop condition body ih =>
      intro loop draft hcurrent h
      obtain ⟨hcondition, hbody⟩ := hstatement
      have hopen := opens_openDo hcurrent condition
      refine ih hbody _ _ (hopen.lt 2 (by simp))
        (hopen.holds hcurrent h (Exit.forall_mem_jump _) ?_)
      have htest : Code.Holds S E
          ⟨[], .branch (.test condition) (draft.fresh + 2) draft.fresh⟩ :=
        ⟨List.forall_mem_nil S, by simpa [Exit.expression?] using hcondition⟩
      simp [htest, Code.holds_jump]
  | forLoop initializer condition increment body ih =>
      intro loop draft hcurrent h
      obtain ⟨hinitializer, hcondition, hincrement, hbody⟩ := hstatement
      have hopen := opens_openFor hcurrent initializer condition increment
      refine ih hbody _ _ (hopen.lt 4 (by simp))
        (hopen.holds hcurrent h (Exit.forall_mem_jump _) ?_)
      have htest : Code.Holds S E
          ⟨[], .branch (forCondition condition) (draft.fresh + 4) draft.fresh⟩ :=
        ⟨List.forall_mem_nil S, by simpa using hcondition⟩
      have hclause : ∀ (clause : Option Node), (∀ node ∈ clause, S node) →
          Code.Holds S E ⟨clause.toList, .jump (draft.fresh + 1)⟩ := by
        intro clause hclause
        exact Code.holds_jump (fun node hnode => hclause node (Option.mem_toList.mp hnode)) _
      simp [htest, hclause initializer hinitializer, hclause increment hincrement, Code.holds_jump]
  | jump jump =>
      intro loop draft hcurrent h
      cases loop with
      | none => exact h
      | some targets =>
          refine holds_cut hcurrent h ?_
          intro node hnode
          cases hnode
  | ret value =>
      intro loop draft hcurrent h
      refine holds_cut hcurrent h ?_
      rw [Exit.expression?_ret]
      exact hstatement

end Draft

/-- The graph of a statement has what the statement has. -/
theorem Statement.holds_graph {statement : Statement} (h : statement.Holds S E) :
    statement.graph.Holds S E := by
  refine Draft.holds_add statement h none Draft.start Draft.current_start ?_
  intro id code hcode
  rw [Draft.code?_start] at hcode
  split at hcode
  · cases hcode
    refine ⟨List.forall_mem_nil S, ?_⟩
    intro node hnode
    cases hnode
  · cases hcode

/-! ## Passes -/

/-- A branch that is settled reads nothing any more; all other exits stay. -/
theorem Exit.mem_expression?_settle {exit : Exit} {node : Node}
    (h : node ∈ exit.settle.expression?) : node ∈ exit.expression? := by
  cases exit with
  | branch condition onTrue onFalse =>
      rw [settle] at h
      split at h
      · cases h
      · exact h
  | ret value => exact h
  | jump next => exact h
  | unset => exact h

namespace Graph

theorem Holds.setParents {graph : Graph} (h : graph.Holds S E) : graph.setParents.Holds S E := by
  intro id code hcode
  rw [code?_setParents] at hcode
  exact h id code hcode

theorem Holds.settleAll {graph : Graph} (h : graph.Holds S E) : graph.settleAll.Holds S E := by
  intro id code hcode
  rw [code?_settleAll] at hcode
  obtain ⟨old, hold, rfl⟩ := Option.map_eq_some_iff.mp hcode
  split
  · refine ⟨(h id old hold).statements, ?_⟩
    intro node hnode
    exact (h id old hold).exit node (Exit.mem_expression?_settle hnode)
  · exact h id old hold

/-- The changes that passes are made of move nodes between blocks. -/
theorem kept_holds : Kept (Holds S E) where
  setParents := fun _ h => h.setParents
  turned := by
    intro graph id next _ _ _ _ h other code hcode
    rw [code?_turned] at hcode
    obtain ⟨old, hold, rfl⟩ := Option.map_eq_some_iff.mp hcode
    split
    · refine ⟨(h other old hold).statements, ?_⟩
      rw [Exit.expression?_retarget]
      exact (h other old hold).exit
    · exact h other old hold
  joined := by
    intro graph head tail absorbed _ _ _ hne _ htail _ h id code hcode
    have habsorbed := h tail absorbed.code (code?_of_block? htail)
    rw [code?_joined hne] at hcode
    obtain ⟨old, hold, rfl⟩ := Option.map_eq_some_iff.mp hcode
    split
    · refine ⟨?_, habsorbed.exit⟩
      intro node hnode
      rcases List.mem_append.mp hnode with hnode | hnode
      · exact (h id old hold).statements node hnode
      · exact habsorbed.statements node hnode
    · split
      · exact ⟨List.forall_mem_nil S, (h id old hold).exit⟩
      · exact h id old hold
  parted := by
    intro graph id block first second rest _ hblock hstatements h other code hcode
    have hparts := h id block.code (code?_of_block? hblock)
    have hall : ∀ node ∈ first :: second :: rest, S node := hstatements ▸ hparts.statements
    obtain ⟨found, hfound, rfl⟩ := block?_of_code? hcode
    rw [block?_parted hblock] at hfound
    split at hfound
    · cases hfound
      exact Code.holds_jump (by simpa using hall first List.mem_cons_self) _
    · split at hfound
      · exact h other found.code (code?_of_block? hfound)
      · obtain ⟨-, statement, hstatement, hheld, hexit⟩ := getElem?_chain _ _ _ _ _ _ _ hfound
        have hmem := hall statement (List.mem_cons_of_mem _ (List.mem_of_getElem? hstatement))
        refine ⟨by simpa [hheld] using hmem, ?_⟩
        rw [Block.code_exit, hexit]
        split
        · exact Exit.forall_mem_jump _
        · exact hparts.exit

/-- Passes take nothing away from what all blocks have. -/
theorem holds_foldl_after {graph : Graph} (hwf : graph.WellFormed) (h : graph.Holds S E)
    (passes : List Pass) : (passes.foldl after graph).Holds S E :=
  kept_holds.foldl_after passes (fun _ _ _ h => h.settleAll) hwf h

end Graph

end DefUse
