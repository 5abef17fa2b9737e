/-
# `Proofs.Graph.Build` — what adding a statement changes

`Draft.add` changes a graph in place.  Of all the blocks that were there before it
touches one, the current one, and of that one it keeps the statements; and the
block that is current afterwards has the exit that the current block had before,
so that control goes on where it would have gone (`Draft.extends_add`).

Five constructs open blocks of their own: they give the current block an exit
into them, and the first of the new blocks, which comes after the construct,
inherits the old exit.  `Opens` says so once, for all of them.

The graph that comes out is wired (`Statement.wired_graph`): a program whose
statements can be read has a graph (`Program.graph_of_statement`).
-/
import DefUse.Proofs.Graph.WellFormed

namespace DefUse

open DefUse.Tree

namespace Draft

/-- Every block knows its index. -/
def Numbered (graph : Graph) : Prop :=
  ∀ id block, graph.block? id = some block → block.id = id

theorem numbered_add {graph : Graph} (h : Numbered graph) (word : String) (exit : Exit) :
    Numbered (graph.add word exit) := by
  intro id block hblock
  rw [Graph.block?_add] at hblock
  split at hblock
  · rename_i hid
    cases hblock
    exact hid.symm
  · exact h id block hblock

theorem numbered_modify {graph : Graph} (h : Numbered graph) (changed : BlockId)
    {f : Block → Block} (hf : ∀ block, (f block).id = block.id) :
    Numbered (graph.modify changed f) := by
  intro id block hblock
  rw [Graph.block?_modify] at hblock
  split at hblock
  · obtain ⟨old, hold, rfl⟩ := Option.map_eq_some_iff.mp hblock
    rw [hf]
    exact h id old hold
  · exact h id block hblock

/-! ## New blocks -/

/-- The graph is that of the draft with new blocks of the given code. -/
structure Grows (draft : Draft) (graph : Graph) (codes : List Code) : Prop where
  size : graph.blocks.size = draft.fresh + codes.length
  entry : graph.entry = draft.graph.entry
  numbered : Numbered draft.graph → Numbered graph
  old : ∀ id < draft.fresh, graph.code? id = draft.graph.code? id
  new : ∀ i, graph.code? (draft.fresh + i) = codes[i]?

variable {draft : Draft} {graph : Graph} {codes : List Code}

theorem grows_refl (draft : Draft) : draft.Grows draft.graph [] where
  size := rfl
  entry := rfl
  numbered := id
  old := fun _ _ => rfl
  new := fun i => Graph.code?_eq_none (Nat.le_add_right _ i)

theorem Grows.add (h : draft.Grows graph codes) (word : String) (exit : Exit) :
    draft.Grows (graph.add word exit) (codes ++ [⟨[], exit⟩]) where
  size := by
    rw [Graph.size_add, h.size, List.length_append, List.length_singleton, Nat.add_assoc]
  entry := h.entry
  numbered := fun hn => numbered_add (h.numbered hn) word exit
  old := by
    intro id hid
    have hne : id ≠ graph.blocks.size := by
      rw [h.size]
      lia
    rw [Graph.code?_add, if_neg hne, h.old id hid]
  new := by
    intro i
    rw [Graph.code?_add, h.size, h.new i, List.getElem?_append]
    by_cases hlast : i = codes.length
    · subst hlast
      simp
    · have hne : draft.fresh + i ≠ draft.fresh + codes.length := by lia
      rw [if_neg hne]
      split
      · rfl
      · rw [List.getElem?_eq_none (by lia), List.getElem?_eq_none (by simp; lia)]

/-- Statements put into a new block. -/
theorem Grows.append (h : draft.Grows graph codes) (i : Nat) (statements : List Node) :
    draft.Grows (graph.append (draft.fresh + i) statements)
      (codes.modify i fun code => { code with statements := code.statements ++ statements }) where
  size := by rw [Graph.size_append, h.size, List.length_modify]
  entry := h.entry
  numbered := fun hn => numbered_modify (h.numbered hn) _ fun _ => rfl
  old := by
    intro id hid
    rw [Graph.code?_append, if_neg (by lia), h.old id hid]
  new := by
    intro j
    rw [Graph.code?_append, List.getElem?_modify, h.new j]
    by_cases hij : i = j
    · subst hij
      rw [if_pos rfl]
      simp
    · rw [if_neg (by lia)]
      simp [hij]

/-- The graph got new blocks of the given code, and the current block a new exit. -/
structure Opens (draft : Draft) (graph : Graph) (exit : Exit) (codes : List Code) : Prop where
  size : graph.blocks.size = draft.fresh + codes.length
  entry : graph.entry = draft.graph.entry
  numbered : Numbered draft.graph → Numbered graph
  old : ∀ id < draft.fresh, id ≠ draft.current → graph.code? id = draft.graph.code? id
  current : graph.code? draft.current =
    (draft.graph.code? draft.current).map fun code => { code with exit := exit }
  new : ∀ i, graph.code? (draft.fresh + i) = codes[i]?

theorem Grows.opens (h : draft.Grows graph codes) (hcurrent : draft.current < draft.fresh)
    (exit : Exit) : draft.Opens (graph.setExit draft.current exit) exit codes where
  size := by rw [Graph.size_setExit, h.size]
  entry := h.entry
  numbered := fun hn => numbered_modify (h.numbered hn) _ fun _ => rfl
  old := by
    intro id hid hne
    rw [Graph.code?_setExit, if_neg (Ne.symm hne), h.old id hid]
  current := by rw [Graph.code?_setExit, if_pos rfl, h.old _ hcurrent]
  new := by
    intro i
    rw [Graph.code?_setExit, if_neg (by lia), h.new i]

/-- The new blocks exist. -/
theorem Opens.lt {exit : Exit} (h : draft.Opens graph exit codes) (i : Nat)
    (hi : i < codes.length) : draft.fresh + i < graph.blocks.size := by
  rw [h.size]
  exact Nat.add_lt_add_left hi _

/-! ## The openings -/

section Openings

variable (hcurrent : draft.current < draft.fresh)
include hcurrent

theorem opens_cut (exit : BlockId → Exit) :
    draft.Opens (draft.cut exit).graph (exit draft.fresh) [⟨[], draft.pending⟩] :=
  ((grows_refl draft).add "dead" draft.pending).opens hcurrent _

theorem opens_openIf (condition : Node) :
    draft.Opens (draft.openIf condition)
      (.branch (.test condition) (draft.fresh + 1) (draft.fresh + 2))
      [⟨[], draft.pending⟩, ⟨[], .jump draft.fresh⟩, ⟨[], .jump draft.fresh⟩] :=
  ((((grows_refl draft).add "next" draft.pending).add "then" (.jump draft.fresh)).add "else"
    (.jump draft.fresh)).opens hcurrent _

theorem opens_openWhile (condition : Node) :
    draft.Opens (draft.openWhile condition) (.jump (draft.fresh + 1))
      [⟨[], draft.pending⟩, ⟨[], .branch (.test condition) (draft.fresh + 2) draft.fresh⟩,
        ⟨[], .jump (draft.fresh + 1)⟩] :=
  ((((grows_refl draft).add "next" draft.pending).add "while"
    (.branch (.test condition) (draft.fresh + 2) draft.fresh)).add "loop"
    (.jump (draft.fresh + 1))).opens hcurrent _

theorem opens_openDo (condition : Node) :
    draft.Opens (draft.openDo condition) (.jump (draft.fresh + 2))
      [⟨[], draft.pending⟩, ⟨[], .branch (.test condition) (draft.fresh + 2) draft.fresh⟩,
        ⟨[], .jump (draft.fresh + 1)⟩] :=
  ((((grows_refl draft).add "next" draft.pending).add "dowhile"
    (.branch (.test condition) (draft.fresh + 2) draft.fresh)).add "do"
    (.jump (draft.fresh + 1))).opens hcurrent _

theorem opens_openFor (initializer condition increment : Option Node) :
    draft.Opens (draft.openFor initializer condition increment) (.jump (draft.fresh + 2))
      [⟨[], draft.pending⟩, ⟨[], .branch (forCondition condition) (draft.fresh + 4) draft.fresh⟩,
        ⟨initializer.toList, .jump (draft.fresh + 1)⟩,
        ⟨increment.toList, .jump (draft.fresh + 1)⟩, ⟨[], .jump (draft.fresh + 3)⟩] :=
  (((((((grows_refl draft).add "next" draft.pending).add "for"
    (.branch (forCondition condition) (draft.fresh + 4) draft.fresh)).add "init"
    (.jump (draft.fresh + 1))).add "incr" (.jump (draft.fresh + 1))).add "body"
    (.jump (draft.fresh + 3))).append 2 initializer.toList).append 3 increment.toList |>.opens
    hcurrent _

end Openings

theorem pending_within (hwired : draft.graph.Wired) (hcurrent : draft.current < draft.fresh) :
    draft.pending.Within draft.fresh := by
  obtain ⟨code, hcode⟩ := Graph.code?_of_lt hcurrent
  rw [pending, Graph.exitOf_of_code? hcode]
  exact hwired.exits hcode

/-- Blocks whose exits lead to old or new blocks keep the graph wired. -/
theorem Opens.wired {exit : Exit} (h : draft.Opens graph exit (⟨[], draft.pending⟩ :: codes))
    (hwired : draft.graph.Wired) (hcurrent : draft.current < draft.fresh)
    (hexit : exit.Within (draft.fresh + (codes.length + 1)))
    (hcodes : ∀ code ∈ codes, code.exit.Within (draft.fresh + (codes.length + 1))) :
    graph.Wired := by
  have hle : draft.fresh ≤ draft.fresh + (codes.length + 1) := Nat.le_add_right _ _
  refine Graph.wired_of_code? (h.numbered hwired.ids) ?_ ?_
  · rw [h.entry, h.size]
    exact Nat.lt_of_lt_of_le hwired.entry hle
  · intro id code hcode
    rw [h.size]
    by_cases hold : id < draft.fresh
    · by_cases hid : id = draft.current
      · subst hid
        rw [h.current] at hcode
        obtain ⟨old, -, rfl⟩ := Option.map_eq_some_iff.mp hcode
        exact hexit
      · rw [h.old id hold hid] at hcode
        exact (hwired.exits hcode).mono hle
    · obtain ⟨i, rfl⟩ := Nat.exists_eq_add_of_le (Nat.le_of_not_lt hold)
      rw [h.new i] at hcode
      rcases List.mem_cons.mp (List.mem_of_getElem? hcode) with rfl | hmem
      · exact (pending_within hwired hcurrent).mono hle
      · exact hcodes code hmem

/-! ## What a statement leaves alone -/

/-- The new draft continues the old one: of the old blocks only the current one
changed, and it kept its statements; where control goes at the end is the same. -/
structure Extends (new old : Draft) : Prop where
  fresh : old.fresh ≤ new.fresh
  current : new.current = old.current ∨ old.fresh ≤ new.current
  current_lt : new.current < new.fresh
  entry : new.graph.entry = old.graph.entry
  pending : new.pending = old.pending
  frame : ∀ id < old.fresh, id ≠ old.current → new.graph.code? id = old.graph.code? id
  kept : ∀ code, old.graph.code? old.current = some code →
    ∃ more exit, new.graph.code? old.current = some ⟨code.statements ++ more, exit⟩

theorem Extends.refl (hcurrent : draft.current < draft.fresh) : draft.Extends draft where
  fresh := Nat.le_refl _
  current := .inl rfl
  current_lt := hcurrent
  entry := rfl
  pending := rfl
  frame := fun _ _ _ => rfl
  kept := fun code hcode => ⟨[], code.exit, by rw [hcode, List.append_nil]⟩

theorem Extends.trans {first second third : Draft} (h : second.Extends first)
    (h' : third.Extends second) : third.Extends first where
  fresh := Nat.le_trans h.fresh h'.fresh
  current := by
    rcases h'.current with hc | hc
    · rw [hc]
      exact h.current
    · exact .inr (Nat.le_trans h.fresh hc)
  current_lt := h'.current_lt
  entry := h'.entry.trans h.entry
  pending := h'.pending.trans h.pending
  frame := by
    intro id hid hne
    rw [← h.frame id hid hne]
    refine h'.frame id (Nat.lt_of_lt_of_le hid h.fresh) ?_
    rcases h.current with hc | hc
    · rwa [hc]
    · exact Nat.ne_of_lt (Nat.lt_of_lt_of_le hid hc)
  kept := by
    intro code hcode
    obtain ⟨more, exit, hmid⟩ := h.kept code hcode
    have hlt : first.current < second.fresh := Graph.lt_of_code? hmid
    by_cases hc : second.current = first.current
    · rw [← hc] at hmid
      obtain ⟨further, last, hend⟩ := h'.kept _ hmid
      refine ⟨more ++ further, last, ?_⟩
      rw [← hc, hend, List.append_assoc]
    · exact ⟨more, exit, (h'.frame _ hlt (Ne.symm hc)).trans hmid⟩

/-- A construct that opened blocks and filled those after the first one. -/
theorem Opens.extends {exit : Exit} {filled : Graph}
    (h : draft.Opens graph exit (⟨[], draft.pending⟩ :: codes))
    (hcurrent : draft.current < draft.fresh) (hsize : graph.blocks.size ≤ filled.blocks.size)
    (hentry : filled.entry = graph.entry)
    (hkeep : ∀ id ≤ draft.fresh, filled.code? id = graph.code? id) :
    (Draft.mk filled draft.fresh).Extends draft where
  fresh := by
    refine Nat.le_trans ?_ hsize
    rw [h.size]
    exact Nat.le_add_right _ _
  current := .inr (Nat.le_refl _)
  current_lt := by
    refine Nat.lt_of_lt_of_le ?_ hsize
    rw [h.size, List.length_cons]
    exact Nat.lt_add_of_pos_right (Nat.succ_pos _)
  entry := hentry.trans h.entry
  pending := by
    have hnext : filled.code? draft.fresh = some ⟨[], draft.pending⟩ := by
      rw [hkeep _ (Nat.le_refl _)]
      exact h.new 0
    exact Graph.exitOf_of_code? hnext
  frame := by
    intro id hid hne
    rw [hkeep id (Nat.le_of_lt hid), h.old id hid hne]
  kept := by
    intro code hcode
    refine ⟨[], exit, ?_⟩
    rw [hkeep _ (Nat.le_of_lt hcurrent), h.current, hcode, List.append_nil]
    rfl

/-- Filling one block leaves those before it alone. -/
theorem Extends.keeps {new : Draft} {current : BlockId} (h : new.Extends ⟨graph, current⟩)
    (hcurrent : current < graph.blocks.size) {id : BlockId} (hid : id < current) :
    new.graph.code? id = graph.code? id :=
  h.frame id (Nat.lt_trans hid hcurrent) (Nat.ne_of_lt hid)

theorem extends_append (hcurrent : draft.current < draft.fresh) (statements : List Node) :
    (Draft.mk (draft.graph.append draft.current statements) draft.current).Extends draft where
  fresh := Nat.le_of_eq (Graph.size_append ..).symm
  current := .inl rfl
  current_lt := Nat.lt_of_lt_of_eq hcurrent (Graph.size_append ..).symm
  entry := rfl
  pending := by
    obtain ⟨code, hcode⟩ := Graph.code?_of_lt hcurrent
    have hnew := Graph.code?_append draft.graph draft.current draft.current statements
    rw [if_pos rfl, hcode] at hnew
    rw [pending, pending, Graph.exitOf_of_code? hnew, Graph.exitOf_of_code? hcode]
  frame := by
    intro id _ hne
    rw [Graph.code?_append, if_neg (Ne.symm hne)]
  kept := by
    intro code hcode
    refine ⟨statements, code.exit, ?_⟩
    rw [Graph.code?_append, if_pos rfl, hcode]
    rfl

theorem extends_cut (hcurrent : draft.current < draft.fresh) (exit : BlockId → Exit) :
    (draft.cut exit).Extends draft :=
  (opens_cut hcurrent exit).extends hcurrent (Nat.le_refl _) rfl fun _ _ => rfl

/-- So does a construct that opens blocks and fills one of them. -/
theorem Opens.extends_fill {exit : Exit} {new : Draft} (i : Nat)
    (h : draft.Opens graph exit (⟨[], draft.pending⟩ :: codes))
    (hcurrent : draft.current < draft.fresh) (hi : draft.fresh + (i + 1) < graph.blocks.size)
    (hfill : new.Extends ⟨graph, draft.fresh + (i + 1)⟩) :
    (Draft.mk new.graph draft.fresh).Extends draft := by
  refine h.extends hcurrent hfill.fresh hfill.entry ?_
  intro id hid
  exact hfill.keeps hi (by lia)

/-- Adding a statement continues the draft. -/
theorem extends_add (statement : Statement) : ∀ (loop : Option LoopTargets) (draft : Draft),
    draft.current < draft.fresh → (add statement loop draft).Extends draft := by
  induction statement with
  | skip => intro loop draft hcurrent; exact .refl hcurrent
  | simple node => intro loop draft hcurrent; exact extends_append hcurrent [node]
  | seq first second ihFirst ihSecond =>
      intro loop draft hcurrent
      have hfirst := ihFirst loop draft hcurrent
      exact hfirst.trans (ihSecond loop _ hfirst.current_lt)
  | ifElse condition thenArm elseArm ihThen ihElse =>
      intro loop draft hcurrent
      have hopen := opens_openIf hcurrent condition
      have hone := hopen.lt 1 (by simp)
      have hthen := ihThen loop ⟨draft.openIf condition, draft.fresh + 1⟩ hone
      have htwo := hopen.lt 2 (by simp)
      have htwo' := Nat.lt_of_lt_of_le htwo hthen.fresh
      have helse := ihElse loop ⟨_, draft.fresh + 2⟩ htwo'
      refine hopen.extends hcurrent (Nat.le_trans hthen.fresh helse.fresh)
        (helse.entry.trans hthen.entry) ?_
      intro id hid
      rw [helse.keeps htwo' (by lia), hthen.keeps hone (by lia)]
  | whileLoop condition body ih =>
      intro loop draft hcurrent
      have hopen := opens_openWhile hcurrent condition
      have hbody := hopen.lt 2 (by simp)
      exact hopen.extends_fill 1 hcurrent hbody (ih _ _ hbody)
  | doLoop condition body ih =>
      intro loop draft hcurrent
      have hopen := opens_openDo hcurrent condition
      have hbody := hopen.lt 2 (by simp)
      exact hopen.extends_fill 1 hcurrent hbody (ih _ _ hbody)
  | forLoop initializer condition increment body ih =>
      intro loop draft hcurrent
      have hopen := opens_openFor hcurrent initializer condition increment
      have hbody := hopen.lt 4 (by simp)
      exact hopen.extends_fill 3 hcurrent hbody (ih _ _ hbody)
  | jump jump =>
      intro loop draft hcurrent
      cases loop with
      | none => exact .refl hcurrent
      | some targets => exact extends_cut hcurrent _
  | ret value => intro loop draft hcurrent; exact extends_cut hcurrent _

/-! ## The wiring of the whole graph -/

/-- The targets of the innermost loop, if there is one, exist. -/
def InRange (loop : Option LoopTargets) (draft : Draft) : Prop :=
  ∀ targets, loop = some targets → targets.again < draft.fresh ∧ targets.leave < draft.fresh

theorem InRange.mono {loop : Option LoopTargets} {new : Draft} (h : InRange loop draft)
    (hle : draft.fresh ≤ new.fresh) : InRange loop new := by
  intro targets htargets
  obtain ⟨hagain, hleave⟩ := h targets htargets
  exact ⟨Nat.lt_of_lt_of_le hagain hle, Nat.lt_of_lt_of_le hleave hle⟩

theorem wired_append (hwired : draft.graph.Wired) (statements : List Node) :
    (draft.graph.append draft.current statements).Wired := by
  refine Graph.wired_of_code? (numbered_modify hwired.ids _ fun _ => rfl) ?_ ?_
  · rw [Graph.size_append]
    exact hwired.entry
  · intro id code hcode
    rw [Graph.size_append]
    rw [Graph.code?_append] at hcode
    split at hcode
    · obtain ⟨old, hold, rfl⟩ := Option.map_eq_some_iff.mp hcode
      have hexit := hwired.exits hold
      exact hexit
    · exact hwired.exits hcode

theorem wired_cut (hwired : draft.graph.Wired) (hcurrent : draft.current < draft.fresh)
    (exit : BlockId → Exit) (hexit : (exit draft.fresh).Within (draft.fresh + 1)) :
    (draft.cut exit).graph.Wired := by
  refine (opens_cut hcurrent exit).wired hwired hcurrent hexit ?_
  intro code hcode
  cases hcode

/-- Adding a statement keeps the graph wired. -/
theorem wired_add (statement : Statement) : ∀ (loop : Option LoopTargets) (draft : Draft),
    draft.graph.Wired → draft.current < draft.fresh → InRange loop draft →
      (add statement loop draft).graph.Wired := by
  induction statement with
  | skip => intro loop draft hwired _ _; exact hwired
  | simple node => intro loop draft hwired _ _; exact wired_append hwired [node]
  | seq first second ihFirst ihSecond =>
      intro loop draft hwired hcurrent hloop
      have hfirst := extends_add first loop draft hcurrent
      exact ihSecond loop _ (ihFirst loop draft hwired hcurrent hloop) hfirst.current_lt
        (hloop.mono hfirst.fresh)
  | ifElse condition thenArm elseArm ihThen ihElse =>
      intro loop draft hwired hcurrent hloop
      have hopen := opens_openIf hcurrent condition
      have hone := hopen.lt 1 (by simp)
      have htwo := hopen.lt 2 (by simp)
      have hwired' := hopen.wired hwired hcurrent (by simp) (by simp)
      have hthen := extends_add thenArm loop ⟨draft.openIf condition, draft.fresh + 1⟩ hone
      have hloop' : InRange loop ⟨draft.openIf condition, draft.fresh + 1⟩ :=
        hloop.mono (Nat.le_of_lt (hopen.lt 0 (by simp)))
      exact ihElse loop _ (ihThen loop _ hwired' hone hloop')
        (Nat.lt_of_lt_of_le htwo hthen.fresh) (hloop'.mono hthen.fresh)
  | whileLoop condition body ih =>
      intro loop draft hwired hcurrent _
      have hopen := opens_openWhile hcurrent condition
      have hwired' := hopen.wired hwired hcurrent (by simp) (by simp)
      refine ih _ _ hwired' (hopen.lt 2 (by simp)) ?_
      intro targets htargets
      cases htargets
      exact ⟨hopen.lt 1 (by simp), hopen.lt 0 (by simp)⟩
  | doLoop condition body ih =>
      intro loop draft hwired hcurrent _
      have hopen := opens_openDo hcurrent condition
      have hwired' := hopen.wired hwired hcurrent (by simp) (by simp)
      refine ih _ _ hwired' (hopen.lt 2 (by simp)) ?_
      intro targets htargets
      cases htargets
      exact ⟨hopen.lt 1 (by simp), hopen.lt 0 (by simp)⟩
  | forLoop initializer condition increment body ih =>
      intro loop draft hwired hcurrent _
      have hopen := opens_openFor hcurrent initializer condition increment
      have hwired' := hopen.wired hwired hcurrent (by simp) (by simp)
      refine ih _ _ hwired' (hopen.lt 4 (by simp)) ?_
      intro targets htargets
      cases htargets
      exact ⟨hopen.lt 3 (by simp), hopen.lt 0 (by simp)⟩
  | jump jump =>
      intro loop draft hwired hcurrent hloop
      cases loop with
      | none => exact hwired
      | some targets =>
          obtain ⟨hagain, hleave⟩ := hloop targets rfl
          refine wired_cut hwired hcurrent _ (Exit.within_branch.mpr ⟨?_, Nat.lt_succ_self _⟩)
          cases jump with
          | leave => exact Nat.lt_succ_of_lt hleave
          | again => exact Nat.lt_succ_of_lt hagain
  | ret value =>
      intro loop draft hwired hcurrent _
      exact wired_cut hwired hcurrent _ (Exit.within_ret _ value)

theorem current_start : start.current < start.fresh := by decide

theorem code?_start (id : BlockId) :
    start.graph.code? id = if id = 0 then some ⟨[], .ret none⟩ else none := by
  rw [start, Graph.code?_add]
  rfl

theorem wired_start : start.graph.Wired := by
  refine Graph.wired_of_code? ?_ (by decide) ?_
  · refine numbered_add ?_ "start" (.ret none)
    intro id block hblock
    cases hblock
  · intro id code hcode
    rw [code?_start] at hcode
    split at hcode
    · cases hcode
      exact Exit.within_ret _ _
    · cases hcode

end Draft

theorem Statement.wired_graph (statement : Statement) : statement.graph.Wired := by
  refine Draft.wired_add statement none Draft.start Draft.wired_start Draft.current_start ?_
  intro targets htargets
  cases htargets

/-- A program whose statements can be read has a graph. -/
theorem Program.graph_of_statement {program : Program} {statement : Statement}
    (h : program.statement = .ok statement) :
    program.graph = .ok statement.graph.setParents := by
  rw [Program.graph, h]
  exact statement.wired_graph.refresh

/-- The graph of a program is that of its statements. -/
theorem Program.statement_of_graph {program : Program} {graph : Graph}
    (h : program.graph = .ok graph) :
    ∃ statement, program.statement = .ok statement ∧ graph = statement.graph.setParents := by
  cases hstatement : program.statement with
  | error e =>
      rw [Program.graph, hstatement] at h
      cases h
  | ok statement =>
      rw [graph_of_statement hstatement] at h
      cases h
      exact ⟨statement, rfl, rfl⟩

theorem Program.wellFormed_graph {program : Program} {graph : Graph}
    (h : program.graph = .ok graph) : graph.WellFormed := by
  obtain ⟨statement, -, rfl⟩ := statement_of_graph h
  exact statement.wired_graph.setParents

/-! ## An example -/

namespace Program

/-- A node on the first line, with a name of its own. -/
def sampleNode (kind : Kind) (start stop : Nat) (fields : List Field) (children : List Node) :
    Node :=
  .mk ⟨0, kind, true, false, false, false, start, stop, 0, start, fields⟩ children

/-- A declaration and an endless loop. -/
def sampleTree : Node :=
  sampleNode (.other "program") 0 30 []
    [sampleNode .lexicalDeclaration 0 10 []
      [sampleNode .variableDeclarator 4 9 []
        [sampleNode .identifier 4 5 [.name] [],
          sampleNode (.other "number") 8 9 [.value] []]],
      sampleNode .whileStatement 11 30 []
        [sampleNode .parenthesizedExpression 17 23 [.condition]
          [sampleNode .trueLiteral 18 22 [] []],
          sampleNode .expressionStatement 24 30 [.body]
            [sampleNode .assignmentExpression 24 29 []
              [sampleNode .identifier 24 25 [.left] [],
                sampleNode .identifier 28 29 [.right] []]]]]

/-- A small program, to see that what is assumed of programs can be had. -/
def sample : Program :=
  ⟨"let a = 1; while (true) a = a;", .javascript, sampleTree.number 0,
    sampleTree.nodup_ids_number 0⟩

theorem graph_sample : ∃ graph, sample.graph = .ok graph :=
  ⟨_, graph_of_statement rfl⟩

end Program

end DefUse
