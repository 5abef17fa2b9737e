/-
# `Proofs.Graph.Gather` — what is collected over the reachable blocks

How many statements there are, which nodes are held: such questions take a list off
the code of each block and put the lists of the reachable blocks together
(`Graph.gather`).  What is taken is *additive* if a block that is cut in two, with a
jump between the halves, gives what the halves give (`Code.Additive`).

Of such a list three of the four passes change the order at most
(`Graph.perm_gather_after`): the block that is put out of reach gave nothing, or its
share was moved to another block before.  Settling a branch may put code out of
reach, and with it what the code gave.
-/
import DefUse.Proofs.Graph.Reached

namespace DefUse

open DefUse.Tree
open scoped List

variable {α : Type}

/-- What is taken of code adds up over jumps, and does not depend on where edges lead. -/
structure Code.Additive (f : Code → List α) : Prop where
  nil : ∀ next, f ⟨[], .jump next⟩ = []
  append : ∀ statements more exit next,
    f ⟨statements ++ more, exit⟩ = f ⟨statements, .jump next⟩ ++ f ⟨more, exit⟩
  retarget : ∀ statements exit old new, f ⟨statements, exit.retarget old new⟩ = f ⟨statements, exit⟩

namespace Graph

/-- What is taken of one block. -/
def gatherAt (f : Code → List α) (graph : Graph) (id : BlockId) : List α :=
  match graph.code? id with
  | some code => f code
  | none => []

/-- What is taken of the reachable blocks, one after the other. -/
def gather (f : Code → List α) (graph : Graph) : List α :=
  graph.order.flatMap (graph.gatherAt f)

variable {graph other : Graph} {f : Code → List α}

theorem gatherAt_of_code? {id : BlockId} {code : Code} (h : graph.code? id = some code) :
    graph.gatherAt f id = f code := by
  rw [gatherAt, h]

theorem gatherAt_congr {id : BlockId} (h : graph.code? id = other.code? id) :
    graph.gatherAt f id = other.gatherAt f id := by
  rw [gatherAt, gatherAt, h]

theorem gather_eq (f : Code → List α) (graph : Graph) :
    graph.gather f = graph.reachable.flatMap fun block => f block.code := by
  rw [gather, reachable]
  induction graph.order with
  | nil => rfl
  | cons id rest ih =>
      rw [List.flatMap_cons, ih, gatherAt, code?, List.filterMap_cons]
      cases graph.block? id <;> rfl

/-! ## Lists of blocks -/

/-- If one block gets more, so does the whole. -/
theorem perm_flatMap_of_more {ids : List BlockId} {g g' : BlockId → List α} {id : BlockId}
    {more : List α} (hnodup : ids.Nodup) (hid : id ∈ ids)
    (hothers : ∀ other ∈ ids, other ≠ id → g' other = g other) (hself : g' id ~ g id ++ more) :
    ids.flatMap g' ~ ids.flatMap g ++ more := by
  obtain ⟨front, back, rfl⟩ := List.append_of_mem hid
  have hnot := (List.nodup_cons.mp (List.nodup_middle.mp hnodup)).1
  have hfront : front.flatMap g' = front.flatMap g := by
    refine List.flatMap_congr fun other hother => hothers other (List.mem_append_left _ hother) ?_
    rintro rfl
    exact hnot (List.mem_append_left _ hother)
  have hback : back.flatMap g' = back.flatMap g := by
    refine List.flatMap_congr fun other hother =>
      hothers other (List.mem_append_right _ (List.mem_cons_of_mem _ hother)) ?_
    rintro rfl
    exact hnot (List.mem_append_right _ hother)
  rw [List.flatMap_append, List.flatMap_append, List.flatMap_cons, List.flatMap_cons, hfront,
    hback, List.append_assoc, List.append_assoc]
  refine List.Perm.append_left _ ((hself.append_right _).trans ?_)
  rw [List.append_assoc]
  exact List.Perm.append_left _ List.perm_append_comm

/-- Going through a list by the places in it. -/
theorem flatMap_range_getElem? {β : Type} (items : List β) (g : β → List α) :
    (List.range items.length).flatMap (fun i => (items[i]?.map g).getD []) = items.flatMap g := by
  induction items with
  | nil => rfl
  | cons item rest ih =>
      rw [List.length_cons, List.range_succ_eq_map, List.flatMap_cons, List.flatMap_map,
        List.flatMap_cons, ← ih]
      rfl

/-! ## The changes -/

theorem perm_gather_setParents (f : Code → List α) (graph : Graph) :
    graph.setParents.gather f ~ graph.gather f := by
  refine ((perm_order_setParents graph).flatMap_right _).trans
    (List.Perm.of_eq (List.flatMap_congr ?_))
  exact fun id _ => gatherAt_congr (code?_setParents graph id)

theorem perm_gather_turned (hf : Code.Additive f) (h : graph.WellFormed) {id next : BlockId}
    (hid : graph.Reachable id) (hcode : graph.code? id = some ⟨[], .jump next⟩) (hne : next ≠ id) :
    (graph.turned id next).gather f ~ graph.gather f := by
  have horder := perm_order_cons hid (reachable_turned_iff h hid hcode hne)
  have hsame : ∀ other, (graph.turned id next).gatherAt f other = graph.gatherAt f other := by
    intro other
    rw [gatherAt, gatherAt, code?_turned]
    cases graph.code? other with
    | none => rfl
    | some code =>
        simp only [Option.map_some]
        split
        · exact hf.retarget _ _ _ _
        · rfl
  have hnone : graph.gatherAt f id = [] := by
    rw [gatherAt_of_code? hcode]
    exact hf.nil next
  rw [gather, List.flatMap_congr fun other _ => hsame other]
  refine List.Perm.trans (List.Perm.of_eq ?_) (horder.flatMap_right _).symm
  rw [List.flatMap_cons, hnone, List.nil_append]

theorem perm_gather_joined (hf : Code.Additive f) (h : graph.WellFormed) {head tail : BlockId}
    {absorbed : Block} (hhead : graph.Reachable head) (hexit : graph.exitOf head = .jump tail)
    (hne : tail ≠ head) (hentry : tail ≠ graph.entry) (htail : graph.block? tail = some absorbed)
    (hparents : absorbed.parents = [head]) :
    (graph.joined head tail absorbed).gather f ~ graph.gather f := by
  obtain ⟨statements, hcode⟩ := code?_head hhead hexit
  have hedge : tail ∈ graph.successors head := by
    rw [successors, hexit]
    exact List.mem_singleton.mpr rfl
  have htail' : graph.Reachable tail := .step hhead hedge (lt_of_block? htail)
  have hreached := reachable_joined_iff h hhead hexit hne hentry htail hparents
  have hhead' : head ∈ (graph.joined head tail absorbed).order :=
    mem_order.mpr ((hreached head).mpr ⟨hhead, Ne.symm hne⟩)
  -- the head gives what it gave and what the tail gave
  have hmore : (graph.joined head tail absorbed).gather f ~
      (graph.joined head tail absorbed).order.flatMap (graph.gatherAt f) ++
        graph.gatherAt f tail := by
    refine perm_flatMap_of_more (nodup_order _) hhead' ?_ ?_
    · intro other hother hother'
      have htailne := ((hreached other).mp (mem_order.mp hother)).2
      exact gatherAt_congr (code?_joined_of_ne hne hother' htailne)
    · have hjoined : (graph.joined head tail absorbed).code? head =
          some ⟨statements ++ absorbed.statements, absorbed.exit⟩ := by
        rw [code?_joined hne, hcode, Option.map_some, if_pos rfl]
      rw [gatherAt_of_code? hjoined, gatherAt_of_code? hcode,
        gatherAt_of_code? (code?_of_block? htail), hf.append _ _ _ tail]
      exact List.Perm.refl _
  refine hmore.trans (List.perm_append_comm.trans ?_)
  rw [← List.flatMap_cons]
  exact ((perm_order_cons htail' hreached).flatMap_right _).symm

section Parted

variable {id : BlockId} {block : Block} {first : Node} {rest : List Node}

/-- The blocks of a chain give what the statements they were made of give with the exit. -/
theorem flatMap_chain (hf : Code.Additive f) (label : String) (exit : Exit) :
    ∀ (statements : List Node) (start count : Nat), statements ≠ [] →
      (chain label exit start count statements).flatMap (fun block => f block.code) =
        f ⟨statements, exit⟩
  | [], _, _, hne => absurd rfl hne
  | [statement], start, count, _ => by
      rw [chain, List.flatMap_singleton]
      rfl
  | statement :: second :: rest, start, count, _ => by
      rw [chain, List.flatMap_cons, flatMap_chain hf label exit (second :: rest) (start + 1)
        (count + 1) (List.cons_ne_nil _ _)]
      · exact (hf.append [statement] (second :: rest) exit _).symm
      · intro h
        cases h

/-- The new blocks give what they were made of gives. -/
theorem flatMap_gatherAt_parted (hf : Code.Additive f) (hblock : graph.block? id = some block)
    (hrest : rest ≠ []) :
    ((List.range rest.length).map (graph.blocks.size + ·)).flatMap
        ((graph.parted id block first rest).gatherAt f) = f ⟨rest, block.exit⟩ := by
  have hat : ∀ i, (graph.parted id block first rest).gatherAt f (graph.blocks.size + i) =
      (((chain block.label block.exit graph.blocks.size 1 rest)[i]?).map
        fun block => f block.code).getD [] := by
    intro i
    rw [gatherAt, code?, block?_parted_chain hblock]
    cases (chain block.label block.exit graph.blocks.size 1 rest)[i]? <;> rfl
  rw [List.flatMap_map]
  simp only [hat]
  rw [← flatMap_chain hf block.label block.exit rest graph.blocks.size 1 hrest,
    ← length_chain block.label block.exit rest graph.blocks.size 1]
  exact flatMap_range_getElem? _ _

theorem perm_gather_parted (hf : Code.Additive f) (hwired : graph.Wired)
    (hblock : graph.block? id = some block) (hstatements : block.statements = first :: rest)
    (hrest : rest ≠ []) : (graph.parted id block first rest).gather f ~ graph.gather f := by
  by_cases hid : graph.Reachable id
  · have horder : (graph.parted id block first rest).order ~ _ :=
      perm_order_parted hwired hblock hrest hid
    refine (horder.flatMap_right _).trans ?_
    rw [List.flatMap_append, flatMap_gatherAt_parted hf hblock hrest]
    refine (perm_flatMap_of_more graph.nodup_order (mem_order.mpr hid) ?_ ?_).symm
    · intro other hother hne
      exact (gatherAt_congr (code?_parted_of_lt hblock hne (mem_order.mp hother).lt)).symm
    · rw [gatherAt_of_code? (code?_parted_self hblock), gatherAt_of_code? (code?_of_block? hblock),
        ← hf.append]
      refine List.Perm.of_eq (congrArg f ?_)
      rw [Block.code, hstatements]
      rfl
  · -- neither the block nor the chain can be reached
    have horder : (graph.parted id block first rest).order ~ graph.order := by
      refine perm_order graph.nodup_order ?_
      intro reached
      rw [reachable_parted_iff hwired hblock hrest, mem_order]
      exact or_iff_left fun h => hid h.1
    refine (horder.flatMap_right _).trans (List.Perm.of_eq (List.flatMap_congr ?_))
    intro other hother
    have hreach := mem_order.mp hother
    refine gatherAt_congr (code?_parted_of_lt hblock ?_ hreach.lt)
    rintro rfl
    exact hid hreach

end Parted

/-! ## Passes -/

theorem kept_gather (hf : Code.Additive f) (all : List α) :
    Kept fun other => other.gather f ~ all where
  setParents := by
    intro other hall
    exact (perm_gather_setParents f other).trans hall
  turned := by
    intro other id next hother hid hcode hne hall
    exact (perm_gather_turned hf hother hid hcode hne).trans hall
  joined := by
    intro other head tail absorbed hother hhead hexit hne hentry htail hparents hall
    exact (perm_gather_joined hf hother hhead hexit hne hentry htail hparents).trans hall
  parted := by
    intro other id block first second rest hother hblock hstatements hall
    exact (perm_gather_parted hf hother hblock hstatements (List.cons_ne_nil _ _)).trans hall

/-- A pass that settles no branch changes the order at most. -/
theorem perm_gather_after (hf : Code.Additive f) (h : graph.WellFormed) {pass : Pass}
    (hpass : pass ≠ .trueBranches) : (graph.after pass).gather f ~ graph.gather f :=
  (kept_gather hf (graph.gather f)).after h pass (fun heq => absurd heq hpass) (List.Perm.refl _)

end Graph

end DefUse
