/-
# `Proofs.Graph.Pass` — the passes keep a graph well formed

Each pass repeats one small change.  For each change there is an equation for the
code of every block afterwards, and for each pass a principle of induction: what
one change keeps, the pass keeps (`bypassAll_keeps`, `mergeAll_keeps`,
`splitAll_keeps`).

First comes that the graph stays well formed, so that the check at the end of a
pass never fails (`WellFormed.apply`).  Whatever is proved of passes later on is
proved of the changes to well formed graphs (`Kept.foldl_after`).
-/
import DefUse.Proofs.Graph.WellFormed

namespace DefUse

open DefUse.Tree

/-! ## Exits -/

namespace Exit

theorem isUnset_retarget (old new : BlockId) (exit : Exit) :
    (exit.retarget old new).isUnset = exit.isUnset := by
  cases exit <;> rfl

theorem successors_retarget (old new : BlockId) (exit : Exit) :
    (exit.retarget old new).successors =
      exit.successors.map fun next => if next = old then new else next := by
  cases exit <;> rfl

theorem expression?_retarget (old new : BlockId) (exit : Exit) :
    (exit.retarget old new).expression? = exit.expression? := by
  cases exit with
  | branch condition onTrue onFalse => cases condition <;> rfl
  | ret value => cases value <;> rfl
  | jump next => rfl
  | unset => rfl

theorem Within.retarget {size : Nat} {exit : Exit} (h : exit.Within size) {old new : BlockId}
    (hnew : new < size) : (exit.retarget old new).Within size := by
  refine ⟨(isUnset_retarget old new exit).trans h.1, ?_⟩
  intro next hnext
  rw [successors_retarget] at hnext
  obtain ⟨before, hbefore, rfl⟩ := List.mem_map.mp hnext
  split
  · exact hnew
  · exact h.2 before hbefore

/-- Settling a branch takes an edge away, or nothing. -/
theorem successors_settle_subset (exit : Exit) : exit.settle.successors ⊆ exit.successors := by
  cases exit with
  | branch condition onTrue onFalse =>
      rw [settle]
      split
      · intro next hnext
        exact List.mem_cons.mpr (.inl (List.mem_singleton.mp hnext))
      · exact fun _ h => h
  | ret value => exact fun _ h => h
  | jump next => exact fun _ h => h
  | unset => exact fun _ h => h

theorem Within.settle {size : Nat} {exit : Exit} (h : exit.Within size) :
    exit.settle.Within size := by
  refine ⟨?_, fun next hnext => h.2 next (successors_settle_subset exit hnext)⟩
  cases exit with
  | branch condition onTrue onFalse =>
      rw [Exit.settle]
      split <;> rfl
  | ret value => rfl
  | jump next => rfl
  | unset => exact h.1

end Exit

namespace Graph

variable {graph : Graph}

/-! ## Empty jumps -/

theorem emptyJump?_eq_some {found id next : BlockId} (h : graph.emptyJump? found = some (id, next)) :
    found = id ∧ graph.code? id = some ⟨[], .jump next⟩ ∧ next ≠ id := by
  rw [emptyJump?] at h
  split at h
  · rename_i hblock
    split at h
    · cases h
    · rename_i hne
      cases h
      exact ⟨rfl, code?_of_block? hblock, hne⟩
  · cases h

/-- The parents that a block lists. -/
def listed (graph : Graph) (id : BlockId) : List BlockId :=
  match graph.block? id with
  | some block => block.parents
  | none => []

/-- The graph with the edges to a block turned, before parents are computed. -/
def turned (id next : BlockId) (graph : Graph) : Graph :=
  { graph with
    blocks := graph.blocks.mapIdx fun parent block =>
      if (graph.listed id).contains parent then
        { block with exit := block.exit.retarget id next }
      else block
    entry := if graph.entry = id then next else graph.entry }

@[simp] theorem size_turned (id next : BlockId) (graph : Graph) :
    (graph.turned id next).blocks.size = graph.blocks.size := by
  simp [turned]

theorem block?_turned (id next other : BlockId) (graph : Graph) :
    (graph.turned id next).block? other = (graph.block? other).map fun block =>
      if (graph.listed id).contains other then
        { block with exit := block.exit.retarget id next }
      else block := by
  rw [block?, turned, Array.getElem?_mapIdx]
  rfl

theorem code?_turned (id next other : BlockId) (graph : Graph) :
    (graph.turned id next).code? other = (graph.code? other).map fun code =>
      if (graph.listed id).contains other then
        { code with exit := code.exit.retarget id next }
      else code := by
  rw [code?, block?_turned, code?, Option.map_map, Option.map_map]
  congr 1
  funext block
  simp only [Function.comp_apply]
  split <;> rfl

theorem Wired.turned (h : graph.Wired) {id next : BlockId} (hnext : next < graph.blocks.size) :
    (graph.turned id next).Wired := by
  refine wired_of_code? ?_ ?_ ?_
  · intro other block hblock
    rw [block?_turned] at hblock
    obtain ⟨old, hold, rfl⟩ := Option.map_eq_some_iff.mp hblock
    have hid := h.ids other old hold
    split <;> exact hid
  · rw [size_turned]
    show (if graph.entry = id then next else graph.entry) < _
    split
    · exact hnext
    · exact h.entry
  · intro other code hcode
    rw [code?_turned] at hcode
    obtain ⟨old, hold, rfl⟩ := Option.map_eq_some_iff.mp hcode
    have hexit := h.exits hold
    rw [size_turned]
    split
    · exact hexit.retarget hnext
    · exact hexit

/-- What taking out one empty block keeps, taking out all of them keeps. -/
theorem bypassAll_keeps {P : Graph → Prop}
    (step : ∀ graph id next, P graph → graph.Reachable id →
      graph.code? id = some ⟨[], .jump next⟩ → next ≠ id → P (graph.bypass id next)) :
    ∀ (fuel : Nat) (graph : Graph), P graph → P (bypassAll fuel graph)
  | 0, _, h => h
  | fuel + 1, graph, h => by
      rw [bypassAll]
      split
      · rename_i id next hfound
        obtain ⟨found, horder, hjump⟩ := List.exists_of_findSome?_eq_some hfound
        obtain ⟨rfl, hcode, hne⟩ := emptyJump?_eq_some hjump
        exact bypassAll_keeps step fuel _ (step graph found next h (mem_order.mp horder) hcode hne)
      · exact h

/-! ## True branches -/

@[simp] theorem size_settleAll (graph : Graph) :
    graph.settleAll.blocks.size = graph.blocks.size := by
  simp [settleAll]

theorem block?_settleAll (graph : Graph) (id : BlockId) :
    graph.settleAll.block? id = (graph.block? id).map fun block =>
      if graph.order.contains id then { block with exit := block.exit.settle } else block := by
  rw [block?, settleAll, Array.getElem?_mapIdx]
  rfl

theorem code?_settleAll (graph : Graph) (id : BlockId) :
    graph.settleAll.code? id = (graph.code? id).map fun code =>
      if graph.order.contains id then { code with exit := code.exit.settle } else code := by
  rw [code?, block?_settleAll, code?, Option.map_map, Option.map_map]
  congr 1
  funext block
  simp only [Function.comp_apply]
  split <;> rfl

theorem Wired.settleAll (h : graph.Wired) : graph.settleAll.Wired := by
  refine wired_of_code? ?_ ?_ ?_
  · intro id block hblock
    rw [block?_settleAll] at hblock
    obtain ⟨old, hold, rfl⟩ := Option.map_eq_some_iff.mp hblock
    have hid := h.ids id old hold
    split <;> exact hid
  · rw [size_settleAll]
    exact h.entry
  · intro id code hcode
    rw [code?_settleAll] at hcode
    obtain ⟨old, hold, rfl⟩ := Option.map_eq_some_iff.mp hcode
    have hexit := h.exits hold
    rw [size_settleAll]
    split
    · exact hexit.settle
    · exact hexit

/-- Settling branches adds no edge. -/
theorem successors_settleAll_subset (graph : Graph) (id : BlockId) :
    graph.settleAll.successors id ⊆ graph.successors id := by
  intro next hnext
  have hlt := lt_of_mem_successors hnext
  rw [size_settleAll] at hlt
  obtain ⟨code, hcode⟩ := code?_of_lt hlt
  have hcode' := code?_settleAll graph id
  rw [hcode, Option.map_some] at hcode'
  rw [successors_of_code? hcode'] at hnext
  rw [successors_of_code? hcode]
  split at hnext
  · exact Exit.successors_settle_subset _ hnext
  · exact hnext

/-- So it brings nothing into reach. -/
theorem reachable_settleAll (hwired : graph.Wired) {id : BlockId}
    (h : graph.settleAll.Reachable id) : graph.Reachable id := by
  induction h with
  | entry _ => exact .entry hwired.entry
  | step _ hedge _ ih =>
      have hedge' := successors_settleAll_subset graph _ hedge
      exact .step ih hedge' (hwired.targets _ _ hedge')

/-! ## Merging -/

theorem mergeable?_eq_some {found head tail : BlockId}
    (h : graph.mergeable? found = some (head, tail)) :
    found = head ∧ graph.exitOf head = .jump tail ∧ tail ≠ head ∧ tail ≠ graph.entry ∧
      ∃ block, graph.block? tail = some block ∧ block.parents = [head] := by
  rw [mergeable?] at h
  split at h
  · rename_i next hexit
    dsimp only at h
    split at h
    · rename_i hcond
      cases h
      simp only [Bool.and_eq_true, decide_eq_true_eq, Option.any_eq_true] at hcond
      obtain ⟨⟨hne, hentry⟩, block, hblock, hparents⟩ := hcond
      exact ⟨rfl, hexit, hne, hentry, block, hblock, hparents⟩
    · cases h
  · cases h

/-- The graph with some code at the end of `head`. -/
def copied (head : BlockId) (code : Code) (graph : Graph) : Graph :=
  (graph.append head code.statements).setExit head code.exit

/-- The graph with the statements of a block taken away. -/
def emptied (tail : BlockId) (graph : Graph) : Graph :=
  graph.modify tail fun block => { block with statements := [] }

/-- The graph with `tail` joined to `head`, before parents are computed. -/
def joined (head tail : BlockId) (absorbed : Block) (graph : Graph) : Graph :=
  (graph.emptied tail).copied head absorbed.code

theorem merge_eq {head tail : BlockId} {absorbed : Block}
    (h : graph.block? tail = some absorbed) :
    graph.merge head tail = (graph.joined head tail absorbed).setParents := by
  rw [merge, h]
  rfl

@[simp] theorem size_copied (head : BlockId) (code : Code) (graph : Graph) :
    (graph.copied head code).blocks.size = graph.blocks.size := by
  simp [copied]

@[simp] theorem size_emptied (tail : BlockId) (graph : Graph) :
    (graph.emptied tail).blocks.size = graph.blocks.size := by
  simp [emptied]

theorem code?_copied (head : BlockId) (code : Code) (graph : Graph) (id : BlockId) :
    (graph.copied head code).code? id = (graph.code? id).map fun own =>
      if id = head then ⟨own.statements ++ code.statements, code.exit⟩ else own := by
  rw [copied, code?_setExit, code?_append]
  by_cases heq : head = id
  · simp only [if_pos heq, if_pos heq.symm, Option.map_map]
    rfl
  · simp only [if_neg heq, if_neg (Ne.symm heq), Option.map_id']

theorem code?_emptied (tail : BlockId) (graph : Graph) (id : BlockId) :
    (graph.emptied tail).code? id = (graph.code? id).map fun own =>
      if id = tail then { own with statements := [] } else own := by
  rw [code?, emptied, block?_modify, code?, Option.map_map]
  by_cases heq : id = tail
  · simp only [if_pos heq, if_pos heq.symm, Option.map_map]
    rfl
  · simp only [if_neg heq, if_neg (Ne.symm heq)]
    rfl

theorem code?_joined {head tail : BlockId} {absorbed : Block} (hne : tail ≠ head)
    (id : BlockId) :
    (graph.joined head tail absorbed).code? id = (graph.code? id).map fun own =>
      if id = head then ⟨own.statements ++ absorbed.statements, absorbed.exit⟩
      else if id = tail then { own with statements := [] } else own := by
  rw [joined, code?_copied, code?_emptied, Option.map_map]
  by_cases heq : id = head
  · subst heq
    simp only [if_true, Ne.symm hne, if_false]
    rfl
  · simp only [if_neg heq]
    rfl

theorem Wired.copied (h : graph.Wired) (head : BlockId) {code : Code}
    (hcode : code.exit.Within graph.blocks.size) : (graph.copied head code).Wired := by
  refine wired_of_code? ?_ ?_ ?_
  · intro id block hblock
    rw [Graph.copied, setExit, append, block?_modify, block?_modify] at hblock
    cases hold : graph.block? id with
    | none => simp [hold] at hblock
    | some old =>
        have hid := h.ids id old hold
        rw [hold] at hblock
        split at hblock <;> cases hblock <;> exact hid
  · rw [size_copied]
    exact h.entry
  · intro id own hown
    rw [code?_copied] at hown
    obtain ⟨old, hold, rfl⟩ := Option.map_eq_some_iff.mp hown
    rw [size_copied]
    split
    · exact hcode
    · exact h.exits hold

theorem Wired.emptied (h : graph.Wired) (tail : BlockId) : (graph.emptied tail).Wired := by
  refine wired_of_code? ?_ ?_ ?_
  · intro id block hblock
    rw [Graph.emptied, block?_modify] at hblock
    cases hold : graph.block? id with
    | none => simp [hold] at hblock
    | some old =>
        have hid := h.ids id old hold
        rw [hold] at hblock
        split at hblock <;> cases hblock <;> exact hid
  · rw [size_emptied]
    exact h.entry
  · intro id own hown
    rw [code?_emptied] at hown
    obtain ⟨old, hold, rfl⟩ := Option.map_eq_some_iff.mp hown
    have hexit := h.exits hold
    rw [size_emptied]
    split <;> exact hexit

theorem Wired.joined (h : graph.Wired) (head : BlockId) {tail : BlockId} {absorbed : Block}
    (habsorbed : graph.block? tail = some absorbed) :
    (graph.joined head tail absorbed).Wired := by
  refine (h.emptied tail).copied head ?_
  rw [size_emptied]
  exact h.exits (code?_of_block? habsorbed)

section Merge

variable {head tail : BlockId} {absorbed : Block}

theorem code?_head (hhead : graph.Reachable head) (hexit : graph.exitOf head = .jump tail) :
    ∃ statements, graph.code? head = some ⟨statements, .jump tail⟩ := by
  obtain ⟨⟨statements, exit⟩, hcode⟩ := code?_of_lt hhead.lt
  rw [exitOf_of_code? hcode] at hexit
  exact ⟨statements, hexit ▸ hcode⟩

/-- A block with one parent is out of reach once that parent has a copy of it. -/
theorem reachable_copied (h : graph.WellFormed) (hhead : graph.Reachable head)
    (hexit : graph.exitOf head = .jump tail) (hne : tail ≠ head) (hentry : tail ≠ graph.entry)
    (htail : graph.block? tail = some absorbed) (hparents : absorbed.parents = [head])
    {id : BlockId} (hid : (graph.copied head absorbed.code).Reachable id) :
    graph.Reachable id ∧ id ≠ tail := by
  obtain ⟨statements, hstatements⟩ := code?_head hhead hexit
  have hedge : tail ∈ graph.successors head := by
    rw [successors, hexit]
    exact List.mem_singleton.mpr rfl
  have hreach : graph.Reachable tail := .step hhead hedge (lt_of_block? htail)
  have honly : ∀ parent, graph.Reachable parent → tail ∈ graph.successors parent →
      parent = head := by
    intro parent hparent htarget
    have hmem := (h.mem_parents hreach htail).mpr ⟨htarget, hparent⟩
    rw [hparents] at hmem
    exact List.mem_singleton.mp hmem
  have hcode := code?_copied head absorbed.code graph
  induction hid with
  | entry _ => exact ⟨.entry h.entry, hentry.symm⟩
  | @step id next _ hnext _ ih =>
      obtain ⟨hid, hidne⟩ := ih
      by_cases heq : id = head
      · have hcopy : (graph.copied head absorbed.code).code? head =
            some ⟨statements ++ absorbed.statements, absorbed.exit⟩ := by
          rw [hcode, hstatements, Option.map_some, if_pos rfl]
          rfl
        have hsuccessors : graph.successors tail = absorbed.exit.successors :=
          successors_of_code? (code?_of_block? htail)
        rw [heq, successors_of_code? hcopy, ← hsuccessors] at hnext
        refine ⟨.step hreach hnext (h.targets _ _ hnext), fun hback => hne ?_⟩
        exact honly tail hreach (hback ▸ hnext)
      · have hsame : (graph.copied head absorbed.code).code? id = graph.code? id := by
          rw [hcode]
          simp only [if_neg heq, Option.map_id']
        rw [successors_congr hsame] at hnext
        refine ⟨.step hid hnext (h.targets _ _ hnext), fun hback => heq ?_⟩
        exact honly id hid (hback ▸ hnext)

/-- Emptying it then changes nothing that can be reached. -/
theorem code?_copied_eq_joined (h : graph.WellFormed) (hhead : graph.Reachable head)
    (hexit : graph.exitOf head = .jump tail) (hne : tail ≠ head) (hentry : tail ≠ graph.entry)
    (htail : graph.block? tail = some absorbed) (hparents : absorbed.parents = [head])
    {id : BlockId} (hid : (graph.copied head absorbed.code).Reachable id) :
    (graph.copied head absorbed.code).code? id = (graph.joined head tail absorbed).code? id := by
  obtain ⟨-, hidne⟩ := reachable_copied h hhead hexit hne hentry htail hparents hid
  rw [code?_copied, code?_joined hne]
  simp only [if_neg hidne]
  rfl

end Merge

/-- What joining a block with its only parent keeps, merging keeps. -/
theorem mergeAll_keeps {P : Graph → Prop}
    (step : ∀ graph head tail absorbed, P graph → graph.Reachable head →
      graph.exitOf head = .jump tail → tail ≠ head → tail ≠ graph.entry →
      graph.block? tail = some absorbed → absorbed.parents = [head] →
      P (graph.joined head tail absorbed).setParents) :
    ∀ (fuel : Nat) (graph : Graph), P graph → P (mergeAll fuel graph)
  | 0, _, h => h
  | fuel + 1, graph, h => by
      rw [mergeAll]
      split
      · rename_i head tail hfound
        obtain ⟨found, horder, hmerge⟩ := List.exists_of_findSome?_eq_some hfound
        obtain ⟨rfl, hexit, hne, hentry, absorbed, habsorbed, hparents⟩ := mergeable?_eq_some hmerge
        rw [merge_eq habsorbed]
        exact mergeAll_keeps step fuel _
          (step graph found tail absorbed h (mem_order.mp horder) hexit hne hentry habsorbed hparents)
      · exact h

/-! ## Splitting -/

/-- The blocks of a chain, by their place in it. -/
theorem getElem?_chain (label : String) (exit : Exit) : ∀ (statements : List Node)
    (first count i : Nat) (block : Block), (chain label exit first count statements)[i]? = some block →
      block.id = first + i ∧ ∃ statement, statements[i]? = some statement ∧
        block.statements = [statement] ∧
        block.exit = if i + 1 < statements.length then .jump (first + i + 1) else exit
  | [], first, count, i, block, h => by simp [chain] at h
  | [statement], first, count, 0, block, h => by
      cases h
      exact ⟨rfl, statement, rfl, rfl, rfl⟩
  | [statement], first, count, i + 1, block, h => by simp [chain] at h
  | statement :: second :: rest, first, count, 0, block, h => by
      cases h
      exact ⟨rfl, statement, rfl, rfl, by simp⟩
  | statement :: second :: rest, first, count, i + 1, block, h => by
      have ih := getElem?_chain label exit (second :: rest) (first + 1) (count + 1) i block
        (by simpa [chain] using h)
      simpa [Nat.add_assoc, Nat.add_comm 1, Nat.add_left_comm 1] using ih

theorem length_chain (label : String) (exit : Exit) : ∀ (statements : List Node)
    (first count : Nat), (chain label exit first count statements).length = statements.length
  | [], _, _ => rfl
  | [_], _, _ => rfl
  | _ :: second :: rest, first, count => by
      simpa [chain] using length_chain label exit (second :: rest) (first + 1) (count + 1)

/-- The graph with the blocks of a chain at its end. -/
def extended (blocks : List Block) (graph : Graph) : Graph :=
  { graph with blocks := graph.blocks ++ blocks.toArray }

@[simp] theorem size_extended (blocks : List Block) (graph : Graph) :
    (graph.extended blocks).blocks.size = graph.blocks.size + blocks.length := by
  simp [extended]

theorem block?_extended (blocks : List Block) (graph : Graph) (id : BlockId) :
    (graph.extended blocks).block? id =
      if id < graph.blocks.size then graph.block? id else blocks[id - graph.blocks.size]? := by
  rw [block?, extended, Array.getElem?_append]
  split
  · rfl
  · simp

/-- The graph with a block cut after its first statement and the others in a chain. -/
def parted (id : BlockId) (block : Block) (first : Node) (rest : List Node) (graph : Graph) :
    Graph :=
  (graph.modify id fun block =>
      { block with statements := [first], exit := .jump graph.blocks.size }).extended
    (chain block.label block.exit graph.blocks.size 1 rest)

theorem splitBlock_eq {id : BlockId} {block : Block} {first second : Node} {rest : List Node}
    (hblock : graph.block? id = some block) (hstatements : block.statements = first :: second :: rest) :
    graph.splitBlock id = graph.parted id block first (second :: rest) := by
  obtain ⟨index, label, statements, exit, parents⟩ := block
  simp only at hstatements
  subst hstatements
  rw [splitBlock, hblock]
  rfl

theorem size_parted (id : BlockId) (block : Block) (first : Node) (rest : List Node)
    (graph : Graph) :
    (graph.parted id block first rest).blocks.size = graph.blocks.size + rest.length := by
  rw [parted, size_extended, size_modify, length_chain]

theorem block?_parted {id : BlockId} {block : Block} {first : Node} {rest : List Node}
    (hblock : graph.block? id = some block) (other : BlockId) :
    (graph.parted id block first rest).block? other =
      if other = id then
        some { block with statements := [first], exit := .jump graph.blocks.size }
      else if other < graph.blocks.size then graph.block? other
      else (chain block.label block.exit graph.blocks.size 1 rest)[other - graph.blocks.size]? := by
  rw [parted, block?_extended, size_modify, block?_modify]
  by_cases h : other = id
  · subst h
    simp only [if_true, lt_of_block? hblock, hblock]
    rfl
  · simp only [if_neg h, if_neg (Ne.symm h)]

theorem Wired.parted (h : graph.Wired) {id : BlockId} {block : Block} (first second : Node)
    (rest : List Node) (hblock : graph.block? id = some block) :
    (graph.parted id block first (second :: rest)).Wired := by
  have hsize := size_parted id block first (second :: rest) graph
  have hle : graph.blocks.size ≤ (graph.parted id block first (second :: rest)).blocks.size :=
    hsize ▸ Nat.le_add_right _ _
  refine wired_of_code? ?_ (Nat.lt_of_lt_of_le h.entry hle) ?_
  · intro other found hfound
    rw [block?_parted hblock] at hfound
    split at hfound
    · rename_i hother
      cases hfound
      exact (h.ids id block hblock).trans hother.symm
    · split at hfound
      · exact h.ids other found hfound
      · rename_i hlt
        have hid := (getElem?_chain _ _ _ _ _ _ _ hfound).1
        rw [hid, Nat.add_sub_cancel' (Nat.le_of_not_lt hlt)]
  · intro other code hcode
    obtain ⟨found, hfound, rfl⟩ := block?_of_code? hcode
    rw [block?_parted hblock] at hfound
    split at hfound
    · cases hfound
      refine Exit.within_jump.mpr ?_
      rw [hsize]
      exact Nat.lt_add_of_pos_right (Nat.succ_pos _)
    · split at hfound
      · exact (h.exits (code?_of_block? hfound)).mono hle
      · obtain ⟨-, -, -, -, hexit⟩ := getElem?_chain _ _ _ _ _ _ _ hfound
        rw [Block.code_exit, hexit]
        split
        · refine Exit.within_jump.mpr ?_
          rw [hsize]
          lia
        · exact (h.exits (code?_of_block? hblock)).mono hle

/-- A block is cut if it has two statements, and left alone if it has not. -/
theorem splitBlock_cases (graph : Graph) (id : BlockId) :
    (graph.splitBlock id = graph ∧
      ∀ code, graph.code? id = some code → code.statements.length ≤ 1) ∨
    ∃ block first second rest, graph.block? id = some block ∧
      block.statements = first :: second :: rest ∧
      graph.splitBlock id = graph.parted id block first (second :: rest) := by
  cases hblock : graph.block? id with
  | none =>
      refine .inl ⟨by rw [splitBlock, hblock], ?_⟩
      intro code hcode
      rw [code?, hblock] at hcode
      cases hcode
  | some block =>
      have hcode := code?_of_block? hblock
      obtain ⟨index, label, statements, exit, parents⟩ := block
      rcases statements with _ | ⟨first, _ | ⟨second, rest⟩⟩
      · exact .inl ⟨by rw [splitBlock, hblock], by simp [hcode]⟩
      · exact .inl ⟨by rw [splitBlock, hblock], by simp [hcode]⟩
      · exact .inr ⟨_, first, second, rest, rfl, rfl, splitBlock_eq hblock rfl⟩

/-- What cutting one block keeps, splitting keeps. -/
theorem splitAll_keeps {P : Graph → Prop}
    (step : ∀ graph id block first second rest, P graph → graph.block? id = some block →
      block.statements = first :: second :: rest →
      P (graph.parted id block first (second :: rest))) (h : P graph) : P graph.splitAll := by
  have hfold : ∀ (ids : List BlockId) (graph : Graph), P graph → P (ids.foldl splitBlock graph) := by
    intro ids
    induction ids with
    | nil => exact fun _ h => h
    | cons id rest ih =>
        intro graph h
        refine ih _ ?_
        rcases graph.splitBlock_cases id with ⟨hsame, -⟩ |
          ⟨block, first, second, more, hblock, hstatements, hparted⟩
        · exact hsame.symm ▸ h
        · exact hparted.symm ▸ step graph id block first second more h hblock hstatements
  exact hfold graph.order graph h

/-! ## Passes -/

/-- What a pass makes of a graph. -/
def after (graph : Graph) : Pass → Graph
  | .emptyJumps => bypassAll graph.blocks.size graph
  | .trueBranches => graph.settleAll.setParents
  | .mergeChains => mergeAll graph.blocks.size graph
  | .split => graph.splitAll.setParents

theorem WellFormed.bypassAll (h : graph.WellFormed) (fuel : Nat) :
    (bypassAll fuel graph).WellFormed := by
  refine bypassAll_keeps ?_ fuel graph h
  intro graph id next h _ hcode _
  exact (h.toWired.turned (Exit.within_jump.mp (h.exits hcode))).setParents

theorem WellFormed.mergeAll (h : graph.WellFormed) (fuel : Nat) :
    (mergeAll fuel graph).WellFormed := by
  refine mergeAll_keeps ?_ fuel graph h
  intro graph head tail absorbed h _ _ _ _ habsorbed _
  exact (h.toWired.joined head habsorbed).setParents

theorem Wired.splitAll (h : graph.Wired) : graph.splitAll.Wired := by
  refine splitAll_keeps ?_ h
  intro graph id block first second rest h hblock _
  exact h.parted first second rest hblock

/-- A pass over a well formed graph succeeds, and the result is well formed. -/
theorem WellFormed.apply (h : graph.WellFormed) (pass : Pass) :
    graph.apply pass = .ok (graph.after pass) ∧ (graph.after pass).WellFormed := by
  cases pass with
  | emptyJumps => exact ⟨(h.bypassAll _).validate, h.bypassAll _⟩
  | trueBranches => exact ⟨h.settleAll.refresh, h.settleAll.setParents⟩
  | mergeChains => exact ⟨(h.mergeAll _).validate, h.mergeAll _⟩
  | split => exact ⟨h.splitAll.refresh, h.splitAll.setParents⟩

/-- So does a sequence of passes. -/
theorem WellFormed.foldlM_apply (h : graph.WellFormed) (passes : List Pass) :
    passes.foldlM Graph.apply graph = .ok (passes.foldl after graph) ∧
      (passes.foldl after graph).WellFormed := by
  induction passes generalizing graph with
  | nil => exact ⟨rfl, h⟩
  | cons pass rest ih =>
      obtain ⟨hok, hwf⟩ := h.apply pass
      obtain ⟨hrest, hwf'⟩ := ih hwf
      refine ⟨?_, hwf'⟩
      rw [List.foldlM_cons, hok]
      exact hrest

/-- What the changes keep that passes are made of; the settling of branches is left out. -/
structure Kept (P : Graph → Prop) : Prop where
  setParents : ∀ graph, P graph → P graph.setParents
  turned : ∀ graph id next, graph.WellFormed → graph.Reachable id →
    graph.code? id = some ⟨[], .jump next⟩ → next ≠ id → P graph → P (graph.turned id next)
  joined : ∀ graph head tail absorbed, graph.WellFormed → graph.Reachable head →
    graph.exitOf head = .jump tail → tail ≠ head → tail ≠ graph.entry →
    graph.block? tail = some absorbed → absorbed.parents = [head] → P graph →
    P (graph.joined head tail absorbed)
  parted : ∀ graph id block first second rest, graph.Wired → graph.block? id = some block →
    block.statements = first :: second :: rest → P graph →
    P (graph.parted id block first (second :: rest))

/-- What the changes keep, a pass keeps. -/
theorem Kept.after {P : Graph → Prop} (hkept : Kept P) (h : graph.WellFormed) (pass : Pass)
    (hsettle : pass = .trueBranches → P graph → P graph.settleAll) (hgraph : P graph) :
    P (graph.after pass) := by
  cases pass with
  | emptyJumps =>
      have hall := bypassAll_keeps (P := fun other => other.WellFormed ∧ P other) ?_
        graph.blocks.size graph ⟨h, hgraph⟩
      · exact hall.2
      · rintro other id next ⟨hother, hp⟩ hid hcode hne
        refine ⟨(hother.toWired.turned (Exit.within_jump.mp (hother.exits hcode))).setParents, ?_⟩
        exact hkept.setParents _ (hkept.turned other id next hother hid hcode hne hp)
  | trueBranches => exact hkept.setParents _ (hsettle rfl hgraph)
  | mergeChains =>
      have hall := mergeAll_keeps (P := fun other => other.WellFormed ∧ P other) ?_
        graph.blocks.size graph ⟨h, hgraph⟩
      · exact hall.2
      · rintro other head tail absorbed ⟨hother, hp⟩ hhead hexit hne hentry htail hparents
        refine ⟨(hother.toWired.joined head htail).setParents, hkept.setParents _ ?_⟩
        exact hkept.joined other head tail absorbed hother hhead hexit hne hentry htail hparents hp
  | split =>
      have hall := splitAll_keeps (P := fun other => other.Wired ∧ P other) ?_ ⟨h.toWired, hgraph⟩
      · exact hkept.setParents _ hall.2
      · rintro other id block first second rest ⟨hother, hp⟩ hblock hstatements
        exact ⟨hother.parted first second rest hblock,
          hkept.parted other id block first second rest hother hblock hstatements hp⟩

/-- So does a sequence of passes. -/
theorem Kept.foldl_after {P : Graph → Prop} (hkept : Kept P) (passes : List Pass)
    (hsettle : .trueBranches ∈ passes → ∀ graph, graph.WellFormed → P graph → P graph.settleAll)
    (h : graph.WellFormed) (hgraph : P graph) : P (passes.foldl Graph.after graph) := by
  induction passes generalizing graph with
  | nil => exact hgraph
  | cons pass rest ih =>
      refine ih (fun hmem => hsettle (List.mem_cons_of_mem _ hmem)) (h.apply pass).2 ?_
      refine hkept.after h pass ?_ hgraph
      rintro rfl
      exact hsettle List.mem_cons_self graph h

end Graph

end DefUse
