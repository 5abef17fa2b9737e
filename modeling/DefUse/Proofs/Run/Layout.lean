/-
# `Proofs.Run.Layout` — where a statement stands in its graph

`Graph.Laid` says what it means that a graph holds a statement between two points:
from the code at which the statement begins, control gets to the code that comes
after it.  Each construct has one rule.  The targets of the jumps out of the
innermost loop are part of the relation; after a jump and after `return` any code
may come, for control never gets there.

A graph is built by changing it, so that a block of a draft need not be the block in
the end.  What stays is said by `Draft.Settled` (the blocks that a statement has
left behind) and `Draft.Ahead` (what will be put after the statements that the
current block has now).  With them `Draft.laid_add` is an induction over the
statement, and the built graph holds the statement from its entry to its end
(`Statement.laid_graph`).
-/
import DefUse.Proofs.Run.Basic
import DefUse.Proofs.Graph.Build

namespace DefUse

open DefUse.Tree

/-! ## Statements in a graph -/

/-- The graph holds the statement: from the first code on it does what the statement does, and
goes on with the second one. -/
inductive Graph.Laid (graph : Graph) : Option LoopTargets → Statement → Code → Code → Prop
  | skip {loop : Option LoopTargets} {rest : Code} : Laid graph loop .skip rest rest
  | simple {loop : Option LoopTargets} {node : Node} {statements : List Node} {exit : Exit} :
      Laid graph loop (.simple node) ⟨node :: statements, exit⟩ ⟨statements, exit⟩
  | seq {loop : Option LoopTargets} {first second : Statement} {code middle rest : Code} :
      Laid graph loop first code middle → Laid graph loop second middle rest →
      Laid graph loop (.seq first second) code rest
  | ifElse {loop : Option LoopTargets} {condition : Node} {thenArm elseArm : Statement}
      {onTrue onFalse next : BlockId} {thenCode elseCode rest : Code} :
      graph.code? onTrue = some thenCode → graph.code? onFalse = some elseCode →
      graph.code? next = some rest →
      Laid graph loop thenArm thenCode ⟨[], .jump next⟩ →
      Laid graph loop elseArm elseCode ⟨[], .jump next⟩ →
      Laid graph loop (.ifElse condition thenArm elseArm)
        ⟨[], .branch (.test condition) onTrue onFalse⟩ rest
  | whileLoop {loop : Option LoopTargets} {condition : Node} {body : Statement}
      {test inner next : BlockId} {bodyCode rest : Code} :
      graph.code? test = some ⟨[], .branch (.test condition) inner next⟩ →
      graph.code? inner = some bodyCode → graph.code? next = some rest →
      Laid graph (some ⟨test, next⟩) body bodyCode ⟨[], .jump test⟩ →
      Laid graph loop (.whileLoop condition body) ⟨[], .jump test⟩ rest
  | doLoop {loop : Option LoopTargets} {condition : Node} {body : Statement}
      {test inner next : BlockId} {bodyCode rest : Code} :
      graph.code? test = some ⟨[], .branch (.test condition) inner next⟩ →
      graph.code? inner = some bodyCode → graph.code? next = some rest →
      Laid graph (some ⟨test, next⟩) body bodyCode ⟨[], .jump test⟩ →
      Laid graph loop (.doLoop condition body) ⟨[], .jump inner⟩ rest
  | forLoop {loop : Option LoopTargets} {initializer condition increment : Option Node}
      {body : Statement} {test init incr inner next : BlockId} {bodyCode rest : Code} :
      graph.code? init = some ⟨initializer.toList, .jump test⟩ →
      graph.code? test = some ⟨[], .branch (Draft.forCondition condition) inner next⟩ →
      graph.code? incr = some ⟨increment.toList, .jump test⟩ →
      graph.code? inner = some bodyCode → graph.code? next = some rest →
      Laid graph (some ⟨incr, next⟩) body bodyCode ⟨[], .jump incr⟩ →
      Laid graph loop (.forLoop initializer condition increment body) ⟨[], .jump init⟩ rest
  | jump {targets : LoopTargets} {jump : LoopJump} {dead : BlockId} {rest : Code} :
      Laid graph (some targets) (.jump jump) ⟨[], .branch .always (targets.of jump) dead⟩ rest
  | ret {loop : Option LoopTargets} {value : Option Node} {rest : Code} :
      Laid graph loop (.ret value) ⟨[], .ret value⟩ rest

namespace Draft

variable {graph : Graph} {draft old new : Draft} {code rest : Code}

/-! ## What will not change any more -/

/-- What was laid between two drafts is in the graph as it is in the second one; only the block
that is current then may get more. -/
def Settled (graph : Graph) (old new : Draft) : Prop :=
  ∀ id, id = old.current ∨ old.fresh ≤ id → id < new.fresh → id ≠ new.current →
    graph.code? id = new.graph.code? id

/-- What the graph has after the statements that the current block has now. -/
def Ahead (graph : Graph) (draft : Draft) (rest : Code) : Prop :=
  ∃ code, draft.graph.code? draft.current = some code ∧
    graph.code? draft.current = some ⟨code.statements ++ rest.statements, rest.exit⟩

theorem Ahead.unique (h : Ahead graph draft code) (h' : Ahead graph draft rest) : code = rest := by
  obtain ⟨now, hnow, hend⟩ := h
  obtain ⟨now', hnow', hend'⟩ := h'
  cases hnow.symm.trans hnow'
  have heq := Option.some.inj (hend.symm.trans hend')
  rw [Code.mk.injEq] at heq
  obtain ⟨statements, exit⟩ := code
  obtain ⟨statements', exit'⟩ := rest
  rw [Code.mk.injEq]
  exact ⟨List.append_cancel_left heq.1, heq.2⟩

/-- If the current block has no statements yet, all its code is ahead. -/
theorem ahead_of_empty {exit : Exit} (hnow : draft.graph.code? draft.current = some ⟨[], exit⟩) :
    Ahead graph draft rest ↔ graph.code? draft.current = some rest := by
  constructor
  · rintro ⟨now, hnow', hend⟩
    cases hnow.symm.trans hnow'
    exact hend
  · intro hend
    exact ⟨_, hnow, hend⟩

/-- The code after a statement gives the code before it. -/
theorem Extends.exists_ahead (h : new.Extends old) (hold : old.current < old.fresh)
    (hsettled : Settled graph old new) (hrest : Ahead graph new rest) :
    ∃ code, Ahead graph old code := by
  obtain ⟨now, hnow⟩ := Graph.code?_of_lt hold
  obtain ⟨more, exit, hmore⟩ := h.kept now hnow
  by_cases heq : old.current = new.current
  · obtain ⟨later, hlater, hend⟩ := hrest
    rw [← heq] at hlater hend
    cases hmore.symm.trans hlater
    rw [List.append_assoc] at hend
    exact ⟨⟨more ++ rest.statements, rest.exit⟩, now, hnow, hend⟩
  · have hend := hsettled old.current (.inl rfl) (Graph.lt_of_code? hmore) heq
    exact ⟨⟨more, exit⟩, now, hnow, hend.trans hmore⟩

/-- The first of two statements is settled once the second one is laid. -/
theorem Settled.first {middle : Draft} (h : Settled graph old new)
    (hsecond : new.Extends middle) : Settled graph old middle := by
  intro id hid hlt hne
  have hne' : id ≠ new.current := by
    rcases hsecond.current with heq | hle
    · rwa [heq]
    · exact Nat.ne_of_lt (Nat.lt_of_lt_of_le hlt hle)
  rw [h id hid (Nat.lt_of_lt_of_le hlt hsecond.fresh) hne', hsecond.frame id hlt hne]

/-- So is the second one. -/
theorem Settled.second {middle : Draft} (h : Settled graph old new)
    (hfirst : middle.Extends old) : Settled graph middle new := by
  intro id hid hlt hne
  refine h id ?_ hlt hne
  rcases hid with rfl | hle
  · exact hfirst.current
  · exact .inr (Nat.le_trans hfirst.fresh hle)

/-! ## Laying statements -/

/-- A construct that opened blocks begins with its exit into them, and what comes after it is the
first of them. -/
theorem Opens.ahead {opened filled : Graph} {exit : Exit} {codes : List Code}
    (h : draft.Opens opened exit (⟨[], draft.pending⟩ :: codes))
    (hcurrent : draft.current < draft.fresh) (hsize : opened.blocks.size ≤ filled.blocks.size)
    (hkeep : ∀ id ≤ draft.fresh, filled.code? id = opened.code? id)
    (hsettled : Settled graph draft ⟨filled, draft.fresh⟩) (hcode : Ahead graph draft code)
    (hrest : Ahead graph ⟨filled, draft.fresh⟩ rest) :
    code = ⟨[], exit⟩ ∧ graph.code? draft.fresh = some rest := by
  constructor
  · refine hcode.unique ?_
    obtain ⟨now, hnow⟩ := Graph.code?_of_lt hcurrent
    refine ⟨now, hnow, ?_⟩
    have hlt : draft.current < filled.blocks.size := by
      refine Nat.lt_of_lt_of_le hcurrent (Nat.le_trans ?_ hsize)
      rw [h.size]
      exact Nat.le_add_right _ _
    rw [hsettled _ (.inl rfl) hlt (Nat.ne_of_lt hcurrent), List.append_nil]
    show filled.code? draft.current = _
    rw [hkeep _ (Nat.le_of_lt hcurrent), h.current, hnow]
    rfl
  · have hnext : filled.code? draft.fresh = some ⟨[], draft.pending⟩ :=
      (hkeep _ (Nat.le_refl _)).trans (h.new 0)
    have hiff : Ahead graph ⟨filled, draft.fresh⟩ rest ↔ graph.code? draft.fresh = some rest :=
      ahead_of_empty hnext
    exact hiff.mp hrest

/-- Wherever the statement is added, the graph holds it in the end. -/
def Lays (graph : Graph) (statement : Statement) : Prop :=
  ∀ (loop : Option LoopTargets) (draft : Draft) (code rest : Code),
    draft.current < draft.fresh → statement.Scoped loop.isSome →
    Settled graph draft (add statement loop draft) → Ahead graph draft code →
    Ahead graph (add statement loop draft) rest → graph.Laid loop statement code rest

/-- A statement that fills an empty block is laid from the beginning of that block to its
jump. -/
theorem Lays.fill {statement : Statement} (h : Lays graph statement) {loop : Option LoopTargets}
    {opened : Graph} {id target : BlockId} (hid : opened.code? id = some ⟨[], .jump target⟩)
    (hscoped : statement.Scoped loop.isSome)
    (hend : ∀ other, other = id ∨ opened.blocks.size ≤ other →
      other < (add statement loop ⟨opened, id⟩).fresh →
      graph.code? other = (add statement loop ⟨opened, id⟩).graph.code? other) :
    ∃ code, graph.code? id = some code ∧ graph.Laid loop statement code ⟨[], .jump target⟩ := by
  have hlt : id < opened.blocks.size := Graph.lt_of_code? hid
  have hext := extends_add statement loop ⟨opened, id⟩ hlt
  have hsettled : Settled graph ⟨opened, id⟩ (add statement loop ⟨opened, id⟩) :=
    fun other hother hlt _ => hend other hother hlt
  -- the block that is current at the end has taken over the jump
  have hrest : Ahead graph (add statement loop ⟨opened, id⟩) ⟨[], .jump target⟩ := by
    obtain ⟨now, hnow⟩ := Graph.code?_of_lt hext.current_lt
    have hpending : now.exit = .jump target := by
      have hjump : opened.exitOf id = .jump target := Graph.exitOf_of_code? hid
      rw [← Graph.exitOf_of_code? hnow, ← hjump]
      exact hext.pending
    refine ⟨now, hnow, ?_⟩
    rw [hend _ hext.current hext.current_lt, hnow, List.append_nil, ← hpending]
  obtain ⟨code, hcode⟩ := hext.exists_ahead hlt hsettled hrest
  have hiff : Ahead graph ⟨opened, id⟩ code ↔ graph.code? id = some code := ahead_of_empty hid
  exact ⟨code, hiff.mp hcode, h loop _ code _ hlt hscoped hsettled hcode hrest⟩

/-- A loop opens blocks and fills the last of them with its body; the others stay as they were
opened. -/
theorem Lays.loop {body : Statement} (h : Lays graph body) (codes : List Code)
    {targets : LoopTargets} {opened : Graph} {exit : Exit} {target : BlockId}
    (hopen : draft.Opens opened exit (⟨[], draft.pending⟩ :: (codes ++ [⟨[], .jump target⟩])))
    (hcurrent : draft.current < draft.fresh) (hscoped : body.Scoped true)
    (hsettled : Settled graph draft ⟨(add body (some targets)
      ⟨opened, draft.fresh + (codes.length + 1)⟩).graph, draft.fresh⟩)
    (hcode : Ahead graph draft code)
    (hrest : Ahead graph ⟨(add body (some targets)
      ⟨opened, draft.fresh + (codes.length + 1)⟩).graph, draft.fresh⟩ rest) :
    code = ⟨[], exit⟩ ∧ graph.code? draft.fresh = some rest ∧
      (∀ i < codes.length, graph.code? (draft.fresh + (i + 1)) = codes[i]?) ∧
      ∃ bodyCode, graph.code? (draft.fresh + (codes.length + 1)) = some bodyCode ∧
        graph.Laid (some targets) body bodyCode ⟨[], .jump target⟩ := by
  have hlast := hopen.lt (codes.length + 1) (by simp)
  have hbody := extends_add body (some targets) ⟨opened, draft.fresh + (codes.length + 1)⟩ hlast
  have hkeep : ∀ id < draft.fresh + (codes.length + 1), (add body (some targets)
      ⟨opened, draft.fresh + (codes.length + 1)⟩).graph.code? id = opened.code? id :=
    fun id hid => hbody.keeps hlast hid
  have hinner : opened.code? (draft.fresh + (codes.length + 1)) = some ⟨[], .jump target⟩ := by
    rw [hopen.new, List.getElem?_cons_succ, List.getElem?_concat_length]
  obtain ⟨rfl, hnext⟩ := hopen.ahead hcurrent hbody.fresh (fun id hid => hkeep id (by lia))
    hsettled hcode hrest
  refine ⟨rfl, hnext, fun i hi => ?_, h.fill hinner hscoped fun id hid hlt => ?_⟩
  · have hlt := Nat.lt_of_lt_of_le (hopen.lt (i + 1) (by simp; lia)) hbody.fresh
    rw [hsettled _ (.inr (Nat.le_add_right _ _)) hlt (by show _ ≠ draft.fresh; lia)]
    show (add body (some targets) ⟨opened, _⟩).graph.code? _ = _
    rw [hkeep _ (by lia), hopen.new, List.getElem?_cons_succ, List.getElem?_append_left hi]
  · refine hsettled id ?_ hlt ?_
    · rcases hid with rfl | hle
      · exact .inr (Nat.le_add_right _ _)
      · exact .inr (by have := hopen.size; lia)
    · show id ≠ draft.fresh
      rcases hid with rfl | hle
      · lia
      · have := hopen.lt 0 (by simp)
        lia

/-- A graph holds every statement that was laid in it, if nothing of it was changed later on. -/
theorem laid_add (graph : Graph) (statement : Statement) : Lays graph statement := by
  induction statement with
  | skip =>
      intro loop draft code rest _ _ _ hcode hrest
      cases hcode.unique hrest
      exact .skip
  | simple node =>
      intro loop draft code rest _ _ _ hcode hrest
      -- what is ahead now is the node, and then what is ahead after it
      have hnode : Ahead graph draft ⟨node :: rest.statements, rest.exit⟩ := by
        obtain ⟨now, hnow, hend⟩ := hrest
        rw [add, Graph.code?_append, if_pos rfl] at hnow
        obtain ⟨before, hbefore, rfl⟩ := Option.map_eq_some_iff.mp hnow
        refine ⟨before, hbefore, hend.trans ?_⟩
        rw [List.append_assoc]
        rfl
      cases hcode.unique hnode
      exact .simple
  | seq first second ihFirst ihSecond =>
      intro loop draft code rest hcurrent hscoped hsettled hcode hrest
      have hfirst := extends_add first loop draft hcurrent
      have hsecond := extends_add second loop _ hfirst.current_lt
      have hlater := hsettled.second hfirst
      obtain ⟨middle, hmiddle⟩ := hsecond.exists_ahead hfirst.current_lt hlater hrest
      exact .seq
        (ihFirst loop draft code middle hcurrent hscoped.1 (hsettled.first hsecond) hcode hmiddle)
        (ihSecond loop _ middle rest hfirst.current_lt hscoped.2 hlater hmiddle hrest)
  | ifElse condition thenArm elseArm ihThen ihElse =>
      intro loop draft code rest hcurrent hscoped hsettled hcode hrest
      have hopen := opens_openIf hcurrent condition
      have hsize := hopen.size
      have hone := hopen.lt 1 (by simp)
      have htwo := hopen.lt 2 (by simp)
      have hthen := extends_add thenArm loop ⟨draft.openIf condition, draft.fresh + 1⟩ hone
      have htwo' := Nat.lt_of_lt_of_le htwo hthen.fresh
      have helse := extends_add elseArm loop ⟨_, draft.fresh + 2⟩ htwo'
      have hkeep : ∀ id ≤ draft.fresh, (add (.ifElse condition thenArm elseArm) loop
          draft).graph.code? id = (draft.openIf condition).code? id := by
        intro id hid
        show (add elseArm loop ⟨_, draft.fresh + 2⟩).graph.code? id = _
        rw [helse.keeps htwo' (by lia), hthen.keeps hone (by lia)]
      obtain ⟨rfl, hnext⟩ := hopen.ahead hcurrent (Nat.le_trans hthen.fresh helse.fresh) hkeep
        hsettled hcode hrest
      have hend : ∀ id, draft.fresh < id → id < (add elseArm loop ⟨_, draft.fresh + 2⟩).fresh →
          graph.code? id = (add elseArm loop ⟨_, draft.fresh + 2⟩).graph.code? id :=
        fun id hid hlt => hsettled id (.inr (Nat.le_of_lt hid)) hlt (Nat.ne_of_gt hid)
      -- the second arm is laid after the first one, and leaves it alone
      obtain ⟨thenCode, hthenCode, hthenLaid⟩ := ihThen.fill (hopen.new 1) hscoped.1 (by
        intro id hid hlt
        rw [← helse.frame id hlt (by show id ≠ draft.fresh + 2; lia)]
        exact hend id (by lia) (Nat.lt_of_lt_of_le hlt helse.fresh))
      have helseBlock := (hthen.frame (draft.fresh + 2) htwo (by show _ ≠ draft.fresh + 1; lia)).trans
        (hopen.new 2)
      obtain ⟨elseCode, helseCode, helseLaid⟩ := ihElse.fill helseBlock hscoped.2 (by
        intro id hid hlt
        have hfresh : draft.fresh + 2 < (add thenArm loop ⟨_, draft.fresh + 1⟩).graph.blocks.size :=
          htwo'
        exact hend id (by lia) hlt)
      exact .ifElse hthenCode helseCode hnext hthenLaid helseLaid
  | whileLoop condition body ih =>
      intro loop draft code rest hcurrent hscoped hsettled hcode hrest
      obtain ⟨rfl, hnext, hblocks, bodyCode, hbodyCode, hlaid⟩ :=
        ih.loop [_] (opens_openWhile hcurrent condition) hcurrent hscoped hsettled hcode hrest
      exact .whileLoop (hblocks 0 (by simp)) hbodyCode hnext hlaid
  | doLoop condition body ih =>
      intro loop draft code rest hcurrent hscoped hsettled hcode hrest
      obtain ⟨rfl, hnext, hblocks, bodyCode, hbodyCode, hlaid⟩ :=
        ih.loop [_] (opens_openDo hcurrent condition) hcurrent hscoped hsettled hcode hrest
      exact .doLoop (hblocks 0 (by simp)) hbodyCode hnext hlaid
  | forLoop initializer condition increment body ih =>
      intro loop draft code rest hcurrent hscoped hsettled hcode hrest
      obtain ⟨rfl, hnext, hblocks, bodyCode, hbodyCode, hlaid⟩ :=
        ih.loop [_, _, _] (opens_openFor hcurrent initializer condition increment) hcurrent
          hscoped hsettled hcode hrest
      exact .forLoop (hblocks 1 (by simp)) (hblocks 0 (by simp)) (hblocks 2 (by simp)) hbodyCode
        hnext hlaid
  | jump jump =>
      intro loop draft code rest hcurrent hscoped hsettled hcode hrest
      cases loop with
      | none => cases hscoped
      | some targets =>
          obtain ⟨rfl, -⟩ := (opens_cut hcurrent _).ahead hcurrent (Nat.le_refl _)
            (fun _ _ => rfl) hsettled hcode hrest
          exact .jump
  | ret value =>
      intro loop draft code rest hcurrent _ hsettled hcode hrest
      obtain ⟨rfl, -⟩ := (opens_cut hcurrent fun _ => .ret value).ahead hcurrent (Nat.le_refl _)
        (fun _ _ => rfl) hsettled hcode hrest
      exact .ret

end Draft

/-- The graph of a statement holds it, from the entry to an end without a value. -/
theorem Statement.laid_graph {statement : Statement} (hscoped : statement.Scoped false) :
    ∃ code, statement.graph.setParents.code? statement.graph.entry = some code ∧
      statement.graph.setParents.Laid none statement code ⟨[], .ret none⟩ := by
  have hstart := Draft.current_start
  have hext := Draft.extends_add statement none Draft.start hstart
  have hsettled : Draft.Settled statement.graph.setParents Draft.start
      (Draft.add statement none Draft.start) :=
    fun id _ _ _ => Graph.code?_setParents statement.graph id
  have hrest : Draft.Ahead statement.graph.setParents (Draft.add statement none Draft.start)
      ⟨[], .ret none⟩ := by
    obtain ⟨now, hnow⟩ := Graph.code?_of_lt hext.current_lt
    have hpending : now.exit = .ret none := by
      rw [← Graph.exitOf_of_code? hnow]
      exact hext.pending
    refine ⟨now, hnow, ?_⟩
    rw [Graph.code?_setParents, List.append_nil, ← hpending]
    exact hnow
  obtain ⟨code, hcode⟩ := hext.exists_ahead hstart hsettled hrest
  refine ⟨code, ?_, Draft.laid_add _ statement none _ code _ hstart hscoped hsettled hcode hrest⟩
  have hempty : Draft.start.graph.code? Draft.start.current = some ⟨[], .ret none⟩ := rfl
  have hentry : statement.graph.entry = Draft.start.current := hext.entry
  rw [hentry]
  exact (Draft.ahead_of_empty hempty).mp hcode

end DefUse
