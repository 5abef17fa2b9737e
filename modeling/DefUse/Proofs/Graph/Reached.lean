/-
# `Proofs.Graph.Reached` — what each change leaves in reach

A pass is a series of small changes, and for each of them the blocks in reach
afterwards are known exactly.  Taking out an empty block puts that block out of
reach and no other (`reachable_turned_iff`); so does joining a block with its only
parent (`reachable_joined_iff`); cutting a block brings the new chain into reach if
the block was (`reachable_parted_iff`).

In each case one direction follows an edge of the new graph back to one or two
edges of the old one, and the other direction repairs a chain of old edges that
went through the block in question.
-/
import Mathlib.Data.List.Perm.Lattice
import Mathlib.Data.List.Perm.Subperm
import DefUse.Proofs.Graph.Pass

namespace DefUse.Graph

open scoped List

variable {graph : Graph}

/-! ## Parents -/

/-- A block in reach other than the entry was reached from somewhere else. -/
theorem Reachable.exists_parent {id : BlockId} (h : graph.Reachable id)
    (hentry : id ≠ graph.entry) :
    ∃ parent, graph.Reachable parent ∧ parent ≠ id ∧ id ∈ graph.successors parent := by
  induction h with
  | entry _ => exact absurd rfl hentry
  | @step parent id hparent hedge _ ih =>
      by_cases heq : parent = id
      · subst heq
        exact ih hentry
      · exact ⟨parent, hparent, heq, hedge⟩

/-- The parents that a reachable block of a well formed graph lists. -/
theorem WellFormed.mem_listed (h : graph.WellFormed) {id parent : BlockId}
    (hid : graph.Reachable id) :
    parent ∈ graph.listed id ↔ id ∈ graph.successors parent ∧ graph.Reachable parent := by
  obtain ⟨block, hblock⟩ := block?_of_lt hid.lt
  rw [listed, hblock]
  exact h.mem_parents hid hblock

/-- A block with one parent listed is reached from that one only. -/
theorem WellFormed.eq_of_parents (h : graph.WellFormed) {tail head parent : BlockId}
    {block : Block} (htail : graph.Reachable tail) (hblock : graph.block? tail = some block)
    (hparents : block.parents = [head]) (hparent : graph.Reachable parent)
    (hedge : tail ∈ graph.successors parent) : parent = head := by
  have hmem := (h.mem_parents htail hblock).mpr ⟨hedge, hparent⟩
  rw [hparents] at hmem
  exact List.mem_singleton.mp hmem

/-! ## Empty jumps -/

section Turned

variable {id next : BlockId}

/-- What a turned block leads to. -/
theorem successors_turned (graph : Graph) (id next other : BlockId) :
    (graph.turned id next).successors other =
      if (graph.listed id).contains other then
        (graph.successors other).map fun target => if target = id then next else target
      else graph.successors other := by
  by_cases hother : other < graph.blocks.size
  · obtain ⟨code, hcode⟩ := code?_of_lt hother
    have hcode' := code?_turned id next other graph
    rw [hcode, Option.map_some] at hcode'
    rw [successors_of_code? hcode', successors_of_code? hcode]
    split
    · exact Exit.successors_retarget id next code.exit
    · rfl
  · have hnone : graph.successors other = [] :=
      List.eq_nil_iff_forall_not_mem.mpr fun _ h => hother (lt_of_mem_successors h)
    have hnone' : (graph.turned id next).successors other = [] := by
      refine List.eq_nil_iff_forall_not_mem.mpr fun _ h => hother ?_
      rw [← size_turned id next graph]
      exact lt_of_mem_successors h
    rw [hnone, hnone', List.map_nil, ite_self]

theorem reachable_of_turned (h : graph.WellFormed) (hid : graph.Reachable id)
    (hcode : graph.code? id = some ⟨[], .jump next⟩) (hne : next ≠ id) {reached : BlockId}
    (hreached : (graph.turned id next).Reachable reached) :
    graph.Reachable reached ∧ reached ≠ id := by
  have hedge : next ∈ graph.successors id := by
    rw [successors_of_code? hcode]
    exact List.mem_singleton.mpr rfl
  have hnext : graph.Reachable next := .step hid hedge (h.targets _ _ hedge)
  -- what is led to the target could get there through the empty block
  have honward : ∀ target, graph.Reachable target →
      graph.Reachable (if target = id then next else target) ∧
        (if target = id then next else target) ≠ id := by
    intro target htarget
    split
    · exact ⟨hnext, hne⟩
    · rename_i hother
      exact ⟨htarget, hother⟩
  induction hreached with
  | entry _ => exact honward graph.entry (.entry h.entry)
  | @step from' to' _ hstep _ ih =>
      rw [successors_turned] at hstep
      split at hstep
      · obtain ⟨target, htarget, rfl⟩ := List.mem_map.mp hstep
        exact honward target (.step ih.1 htarget (h.targets _ _ htarget))
      · rename_i hlisted
        refine ⟨.step ih.1 hstep (h.targets _ _ hstep), ?_⟩
        rintro rfl
        exact hlisted (List.contains_iff_mem.mpr ((h.mem_listed hid).mpr ⟨hstep, ih.1⟩))

theorem reachable_turned (h : graph.WellFormed) (hid : graph.Reachable id)
    (hcode : graph.code? id = some ⟨[], .jump next⟩) {reached : BlockId}
    (hreached : graph.Reachable reached) :
    (graph.turned id next).Reachable (if reached = id then next else reached) := by
  have hsize := size_turned id next graph
  induction hreached with
  | entry _ =>
      refine .entry ?_
      rw [hsize]
      show (if graph.entry = id then next else graph.entry) < _
      split
      · exact Exit.within_jump.mp (h.exits hcode)
      · exact h.entry
  | @step from' to' hfrom hstep hlt ih =>
      by_cases hempty : from' = id
      · -- the step out of the empty block leads where the chain already is
        subst hempty
        rw [successors_of_code? hcode] at hstep
        rw [if_pos rfl] at ih
        cases List.mem_singleton.mp hstep
        split <;> exact ih
      · rw [if_neg hempty] at ih
        refine .step ih ?_ ?_
        · rw [successors_turned]
          split
          · exact List.mem_map.mpr ⟨to', hstep, rfl⟩
          · rename_i hlisted
            have hto : to' ≠ id := by
              rintro rfl
              exact hlisted (List.contains_iff_mem.mpr ((h.mem_listed hid).mpr ⟨hstep, hfrom⟩))
            rwa [if_neg hto]
        · rw [hsize]
          split
          · exact Exit.within_jump.mp (h.exits hcode)
          · exact hlt

/-- Taking out an empty block puts it out of reach, and no other. -/
theorem reachable_turned_iff (h : graph.WellFormed) (hid : graph.Reachable id)
    (hcode : graph.code? id = some ⟨[], .jump next⟩) (hne : next ≠ id) (reached : BlockId) :
    (graph.turned id next).Reachable reached ↔ graph.Reachable reached ∧ reached ≠ id := by
  constructor
  · exact reachable_of_turned h hid hcode hne
  · rintro ⟨hreached, hother⟩
    have := reachable_turned h hid hcode hreached
    rwa [if_neg hother] at this

end Turned

/-! ## Merging -/

section Joined

variable {head tail : BlockId} {absorbed : Block}

theorem reachable_of_joined (h : graph.WellFormed) (hhead : graph.Reachable head)
    (hexit : graph.exitOf head = .jump tail) (hne : tail ≠ head) (hentry : tail ≠ graph.entry)
    (htail : graph.block? tail = some absorbed) (hparents : absorbed.parents = [head])
    {reached : BlockId} (hreached : (graph.joined head tail absorbed).Reachable reached) :
    graph.Reachable reached ∧ reached ≠ tail := by
  have hsame : (graph.copied head absorbed.code).entry =
      (graph.joined head tail absorbed).entry := rfl
  have hwired := h.toWired.copied head (h.exits (code?_of_block? htail))
  refine reachable_copied h hhead hexit hne hentry htail hparents ?_
  exact reachable_of_agree hwired hsame
    (fun id => code?_copied_eq_joined h hhead hexit hne hentry htail hparents) hreached

theorem code?_joined_head (absorbed : Block) (hne : tail ≠ head) (hhead : graph.Reachable head)
    (hexit : graph.exitOf head = .jump tail) :
    ∃ statements, (graph.joined head tail absorbed).code? head =
      some ⟨statements ++ absorbed.statements, absorbed.exit⟩ := by
  obtain ⟨statements, hcode⟩ := code?_head hhead hexit
  exact ⟨statements, by rw [code?_joined hne, hcode, Option.map_some, if_pos rfl]⟩

theorem code?_joined_of_ne (hne : tail ≠ head) {other : BlockId} (hhead : other ≠ head)
    (htail : other ≠ tail) :
    (graph.joined head tail absorbed).code? other = graph.code? other := by
  rw [code?_joined hne]
  simp only [if_neg hhead, if_neg htail, Option.map_id']

/-- The head leads where the tail led. -/
theorem successors_joined_head (hne : tail ≠ head) (hhead : graph.Reachable head)
    (hexit : graph.exitOf head = .jump tail) (htail : graph.block? tail = some absorbed) :
    (graph.joined head tail absorbed).successors head = graph.successors tail := by
  obtain ⟨statements, hcode⟩ := code?_joined_head absorbed hne hhead hexit
  rw [successors_of_code? hcode, successors_of_code? (code?_of_block? htail)]
  rfl

theorem reachable_joined (h : graph.WellFormed) (hhead : graph.Reachable head)
    (hexit : graph.exitOf head = .jump tail) (hne : tail ≠ head) (hentry : tail ≠ graph.entry)
    (htail : graph.block? tail = some absorbed) (hparents : absorbed.parents = [head])
    {reached : BlockId} (hreached : graph.Reachable reached) :
    (graph.joined head tail absorbed).Reachable (if reached = tail then head else reached) := by
  have hsuccessors : graph.successors head = [tail] := by
    rw [successors, hexit]
    rfl
  have hedge : tail ∈ graph.successors head := hsuccessors ▸ List.mem_singleton.mpr rfl
  have htail' : graph.Reachable tail := .step hhead hedge (lt_of_block? htail)
  have hsize : (graph.joined head tail absorbed).blocks.size = graph.blocks.size := by
    rw [joined, size_copied, size_emptied]
  induction hreached with
  | entry hlt =>
      rw [if_neg hentry.symm]
      exact .entry (hsize ▸ hlt)
  | @step from' to' hfrom hstep hlt ih =>
      by_cases hhead' : from' = head
      · -- the only way on from the head is the tail
        subst hhead'
        rw [hsuccessors] at hstep
        rw [List.mem_singleton.mp hstep, if_pos rfl]
        rwa [if_neg (Ne.symm hne)] at ih
      · have hto : to' ≠ tail := by
          rintro rfl
          exact hhead' (h.eq_of_parents htail' htail hparents hfrom hstep)
        rw [if_neg hto]
        refine .step ih ?_ (hsize ▸ hlt)
        split
        · rename_i htail''
          rw [successors_joined_head hne hhead hexit htail]
          exact htail'' ▸ hstep
        · rename_i htail''
          rwa [successors_congr (code?_joined_of_ne hne hhead' htail'')]

/-- Joining a block with its only parent puts the block out of reach, and no other. -/
theorem reachable_joined_iff (h : graph.WellFormed) (hhead : graph.Reachable head)
    (hexit : graph.exitOf head = .jump tail) (hne : tail ≠ head) (hentry : tail ≠ graph.entry)
    (htail : graph.block? tail = some absorbed) (hparents : absorbed.parents = [head])
    (reached : BlockId) :
    (graph.joined head tail absorbed).Reachable reached ↔
      graph.Reachable reached ∧ reached ≠ tail := by
  constructor
  · exact reachable_of_joined h hhead hexit hne hentry htail hparents
  · rintro ⟨hreached, hother⟩
    have := reachable_joined h hhead hexit hne hentry htail hparents hreached
    rwa [if_neg hother] at this

end Joined

/-! ## Splitting -/

section Parted

variable {id : BlockId} {block : Block} {first : Tree.Node} {rest : List Tree.Node}

theorem code?_parted_self (hblock : graph.block? id = some block) :
    (graph.parted id block first rest).code? id = some ⟨[first], .jump graph.blocks.size⟩ := by
  rw [code?, block?_parted hblock, if_pos rfl]
  rfl

theorem code?_parted_of_lt (hblock : graph.block? id = some block) {other : BlockId}
    (hne : other ≠ id) (hlt : other < graph.blocks.size) :
    (graph.parted id block first rest).code? other = graph.code? other := by
  rw [code?, block?_parted hblock, if_neg hne, if_pos hlt]
  rfl

theorem block?_parted_chain (hblock : graph.block? id = some block) (i : Nat) :
    (graph.parted id block first rest).block? (graph.blocks.size + i) =
      (chain block.label block.exit graph.blocks.size 1 rest)[i]? := by
  have hlt := lt_of_block? hblock
  rw [block?_parted hblock, if_neg (by lia), if_neg (by lia), Nat.add_sub_cancel_left]

/-- The blocks of the chain jump to each other, and the last one leaves as the block did. -/
theorem code?_parted_chain (hblock : graph.block? id = some block) (first : Tree.Node) {i : Nat}
    (hi : i < rest.length) :
    ∃ statement, (graph.parted id block first rest).code? (graph.blocks.size + i) =
      some ⟨[statement],
        if i + 1 < rest.length then .jump (graph.blocks.size + i + 1) else block.exit⟩ := by
  have hlt : i < (chain block.label block.exit graph.blocks.size 1 rest).length := by
    rwa [length_chain]
  have hfound := List.getElem?_eq_getElem hlt
  obtain ⟨-, statement, -, hstatements, hexit⟩ := getElem?_chain _ _ _ _ _ _ _ hfound
  refine ⟨statement, ?_⟩
  rw [code?_of_block? ((block?_parted_chain hblock i).trans hfound), Block.code, hstatements, hexit]

theorem successors_parted_self (hblock : graph.block? id = some block) :
    (graph.parted id block first rest).successors id = [graph.blocks.size] :=
  successors_of_code? (code?_parted_self hblock)

theorem successors_parted_of_lt (hblock : graph.block? id = some block) {other : BlockId}
    (hne : other ≠ id) (hlt : other < graph.blocks.size) :
    (graph.parted id block first rest).successors other = graph.successors other :=
  successors_congr (code?_parted_of_lt hblock hne hlt)

theorem successors_parted_chain (hblock : graph.block? id = some block) {i : Nat}
    (hi : i < rest.length) :
    (graph.parted id block first rest).successors (graph.blocks.size + i) =
      if i + 1 < rest.length then [graph.blocks.size + i + 1] else graph.successors id := by
  obtain ⟨statement, hcode⟩ := code?_parted_chain hblock first hi
  rw [successors_of_code? hcode, successors_of_code? (code?_of_block? hblock)]
  split <;> rfl

theorem reachable_of_parted (hwired : graph.Wired) (hblock : graph.block? id = some block)
    {reached : BlockId} (h : (graph.parted id block first rest).Reachable reached) :
    graph.Reachable reached ∨ graph.Reachable id ∧ graph.blocks.size ≤ reached := by
  -- an edge of the old graph, from a block that was reached
  have hold : ∀ {source target}, graph.Reachable source → target ∈ graph.successors source →
      graph.Reachable target :=
    fun hsource hmem => .step hsource hmem (hwired.targets _ _ hmem)
  induction h with
  | entry _ => exact .inl (.entry hwired.entry)
  | @step from' to' _ hedge hlt ih =>
      rcases ih with hfrom | ⟨hid, hle⟩
      · by_cases heq : from' = id
        · subst heq
          rw [successors_parted_self hblock] at hedge
          exact .inr ⟨hfrom, Nat.le_of_eq (List.mem_singleton.mp hedge).symm⟩
        · rw [successors_parted_of_lt hblock heq hfrom.lt] at hedge
          exact .inl (hold hfrom hedge)
      · obtain ⟨i, rfl⟩ := Nat.exists_eq_add_of_le hle
        have hfrom := lt_of_mem_successors hedge
        rw [size_parted] at hfrom
        rw [successors_parted_chain hblock (by lia)] at hedge
        split at hedge
        · rw [List.mem_singleton.mp hedge]
          exact .inr ⟨hid, by lia⟩
        · exact .inl (hold hid hedge)

/-- The whole chain is in reach if its block is. -/
theorem reachable_parted_chain (hblock : graph.block? id = some block)
    (h : (graph.parted id block first rest).Reachable id) {i : Nat} (hi : i < rest.length) :
    (graph.parted id block first rest).Reachable (graph.blocks.size + i) := by
  have hsize := size_parted id block first rest graph
  induction i with
  | zero =>
      refine .step h ?_ (by lia)
      rw [successors_parted_self hblock]
      exact List.mem_singleton.mpr rfl
  | succ i ih =>
      refine .step (ih (by lia)) ?_ (by lia)
      rw [successors_parted_chain hblock (by lia), if_pos hi]
      exact List.mem_singleton.mpr rfl

theorem reachable_parted (hblock : graph.block? id = some block) (hrest : rest ≠ [])
    {reached : BlockId} (h : graph.Reachable reached) :
    (graph.parted id block first rest).Reachable reached := by
  have hsize := size_parted id block first rest graph
  have hpos := List.length_pos_iff.mpr hrest
  induction h with
  | entry hlt => exact .entry (Nat.lt_of_lt_of_le hlt (by lia))
  | @step from' to' hfrom hedge hlt ih =>
      by_cases heq : from' = id
      · -- through the chain to its end, which leads where the block led
        subst heq
        have hlast := reachable_parted_chain hblock ih (i := rest.length - 1) (by lia)
        refine .step hlast ?_ (by lia)
        rwa [successors_parted_chain hblock (by lia), if_neg (by lia)]
      · refine .step ih ?_ (by lia)
        rwa [successors_parted_of_lt hblock heq hfrom.lt]

/-- Cutting a block brings the blocks of its chain into reach, if it was itself. -/
theorem reachable_parted_iff (hwired : graph.Wired) (hblock : graph.block? id = some block)
    (hrest : rest ≠ []) (reached : BlockId) :
    (graph.parted id block first rest).Reachable reached ↔
      graph.Reachable reached ∨ graph.Reachable id ∧
        graph.blocks.size ≤ reached ∧ reached < graph.blocks.size + rest.length := by
  constructor
  · intro h
    have hlt := h.lt
    rw [size_parted] at hlt
    rcases reachable_of_parted hwired hblock h with h | ⟨hid, hle⟩
    · exact .inl h
    · exact .inr ⟨hid, hle, hlt⟩
  · rintro (h | ⟨hid, hle, hlt⟩)
    · exact reachable_parted hblock hrest h
    · obtain ⟨i, rfl⟩ := Nat.exists_eq_add_of_le hle
      exact reachable_parted_chain hblock (reachable_parted hblock hrest hid) (by lia)

end Parted

/-! ## The order

The same as permutations of the order, for whatever is counted or collected over it. -/

theorem perm_order {ids : List BlockId} (hnodup : ids.Nodup)
    (h : ∀ id, graph.Reachable id ↔ id ∈ ids) : graph.order ~ ids := by
  refine (List.perm_ext_iff_of_nodup graph.nodup_order hnodup).mpr ?_
  intro id
  rw [mem_order, h]

/-- Listing some reachable blocks, each once. -/
theorem order_subperm {ids : List BlockId} (h : ∀ id, graph.Reachable id → id ∈ ids) :
    graph.order <+~ ids :=
  graph.nodup_order.subperm fun id hid => h id (mem_order.mp hid)

theorem perm_order_setParents (graph : Graph) : graph.setParents.order ~ graph.order := by
  refine perm_order graph.nodup_order ?_
  intro id
  rw [reachable_setParents, mem_order]

/-- One block left out. -/
theorem perm_order_cons {other : Graph} {id : BlockId} (hid : graph.Reachable id)
    (h : ∀ reached, other.Reachable reached ↔ graph.Reachable reached ∧ reached ≠ id) :
    graph.order ~ id :: other.order := by
  refine perm_order (List.nodup_cons.mpr ⟨?_, other.nodup_order⟩) ?_
  · rw [mem_order, h]
    exact fun hself => hself.2 rfl
  · intro reached
    rw [List.mem_cons, mem_order, h]
    by_cases heq : reached = id
    · subst heq
      exact ⟨fun _ => .inl rfl, fun _ => hid⟩
    · simp [heq]

theorem perm_order_parted {id : BlockId} {block : Block} {first : Tree.Node}
    {rest : List Tree.Node} (hwired : graph.Wired) (hblock : graph.block? id = some block)
    (hrest : rest ≠ []) (hid : graph.Reachable id) :
    (graph.parted id block first rest).order ~
      graph.order ++ (List.range rest.length).map (graph.blocks.size + ·) := by
  refine perm_order (List.nodup_append'.mpr ⟨graph.nodup_order, ?_, ?_⟩) ?_
  · exact List.nodup_range.map fun _ _ h => Nat.add_left_cancel h
  · intro reached hold hnew
    obtain ⟨i, -, rfl⟩ := List.mem_map.mp hnew
    have hlt := (mem_order.mp hold).lt
    lia
  · intro reached
    rw [reachable_parted_iff hwired hblock hrest, List.mem_append, mem_order, List.mem_map]
    refine or_congr_right ?_
    constructor
    · rintro ⟨-, hle, hlt⟩
      exact ⟨reached - graph.blocks.size, List.mem_range.mpr (by lia), by lia⟩
    · rintro ⟨i, hi, rfl⟩
      have hlt := List.mem_range.mp hi
      exact ⟨hid, by lia, by lia⟩

end DefUse.Graph
