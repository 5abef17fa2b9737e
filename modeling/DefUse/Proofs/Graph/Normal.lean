/-
# `Proofs.Graph.Normal` — repeating one change until there is no place for it

Two passes are loops: they search the whole graph for a place, make one change there
and search again.  A round of such a loop is a function on graphs, and the loop *ends*
if rounds can be made one after the other until none is possible (`Exhausts`).

Both loops end for the same reason.  A round puts one block out of reach and no other
(`Removes`), so that there are no more rounds than reachable blocks.  The passes count
their rounds and would stop after as many as there are blocks; by then there is none
left to make (`Removes.exhausts`).

Conversely, a block that is reached by one jump only can be merged with the block it is
reached from (`WellFormed.mergeable?_of_only`).
-/
import DefUse.Proofs.Graph.Reached

namespace DefUse.Graph

open scoped List

variable {graph next last : Graph} {round? : Graph → Option Graph}

/-! ## Rounds -/

/-- Takes out the first empty block, if there is one. -/
def bypassNext? (graph : Graph) : Option Graph :=
  (graph.order.findSome? graph.emptyJump?).map fun found => graph.bypass found.1 found.2

/-- Joins the first block that can be joined with its only parent, if there is one. -/
def mergeNext? (graph : Graph) : Option Graph :=
  (graph.order.findSome? graph.mergeable?).map fun found => graph.merge found.1 found.2

/-- Rounds, as long as there is one to make and at most `fuel` of them. -/
def rounds (round? : Graph → Option Graph) : Nat → Graph → Graph
  | 0, graph => graph
  | fuel + 1, graph =>
    match round? graph with
    | some next => rounds round? fuel next
    | none => graph

theorem bypassAll_eq_rounds : ∀ (fuel : Nat) (graph : Graph),
    bypassAll fuel graph = rounds bypassNext? fuel graph
  | 0, _ => rfl
  | fuel + 1, graph => by
      rw [bypassAll, rounds, bypassNext?]
      cases graph.order.findSome? graph.emptyJump? with
      | none => rfl
      | some found => exact bypassAll_eq_rounds fuel _

theorem mergeAll_eq_rounds : ∀ (fuel : Nat) (graph : Graph),
    mergeAll fuel graph = rounds mergeNext? fuel graph
  | 0, _ => rfl
  | fuel + 1, graph => by
      rw [mergeAll, rounds, mergeNext?]
      cases graph.order.findSome? graph.mergeable? with
      | none => rfl
      | some found => exact mergeAll_eq_rounds fuel _

/-- Where there is no round to make, nothing happens, however many are allowed. -/
theorem rounds_of_eq_none (h : round? graph = none) (fuel : Nat) :
    rounds round? fuel graph = graph := by
  cases fuel with
  | zero => rfl
  | succ fuel => rw [rounds, h]

/-! ## Loops that end -/

/-- Made one after the other, rounds lead to a graph where there is none to make.  Each
of them puts one block out of reach and no other. -/
inductive Exhausts (round? : Graph → Option Graph) : Graph → Graph → Prop
  | done {graph : Graph} : round? graph = none → Exhausts round? graph graph
  | again {graph next last : Graph} {gone : BlockId} : round? graph = some next →
      graph.Reachable gone → (∀ id, next.Reachable id ↔ graph.Reachable id ∧ id ≠ gone) →
      Exhausts round? next last → Exhausts round? graph last

theorem Exhausts.eq_none (h : Exhausts round? graph last) : round? last = none := by
  induction h with
  | done hnone => exact hnone
  | again _ _ _ _ ih => exact ih

/-- A round over a well formed graph leaves one, with one block less in reach. -/
def Removes (round? : Graph → Option Graph) : Prop :=
  ∀ graph next, graph.WellFormed → round? graph = some next →
    next.WellFormed ∧ ∃ gone, graph.Reachable gone ∧
      ∀ id, next.Reachable id ↔ graph.Reachable id ∧ id ≠ gone

theorem length_order_le (graph : Graph) : graph.order.length ≤ graph.blocks.size := by
  have hsub : graph.order <+~ List.range graph.blocks.size :=
    order_subperm fun _ hid => List.mem_range.mpr hid.lt
  exact Nat.le_trans hsub.length_le (Nat.le_of_eq List.length_range)

/-- With a round for every reachable block there are enough to come to the end. -/
theorem Removes.exhausts_of_length_le (hremoves : Removes round?) : ∀ (fuel : Nat) (graph : Graph),
    graph.WellFormed → graph.order.length ≤ fuel → Exhausts round? graph (rounds round? fuel graph)
  | 0, graph, h, hle => by
      refine .done ?_
      cases hround : round? graph with
      | none => rfl
      | some next =>
          obtain ⟨-, gone, hgone, -⟩ := hremoves graph next h hround
          have hpos := List.length_pos_of_mem (mem_order.mpr hgone)
          exact absurd hle (Nat.not_le_of_lt hpos)
  | fuel + 1, graph, h, hle => by
      rw [rounds]
      cases hround : round? graph with
      | none => exact .done hround
      | some next =>
          obtain ⟨hnext, gone, hgone, hreach⟩ := hremoves graph next h hround
          have hfewer := (perm_order_cons hgone hreach).length_eq
          rw [List.length_cons] at hfewer
          exact .again hround hgone hreach (exhausts_of_length_le hremoves fuel next hnext (by lia))

theorem Removes.exhausts (hremoves : Removes round?) (h : graph.WellFormed) :
    Exhausts round? graph (rounds round? graph.blocks.size graph) :=
  hremoves.exhausts_of_length_le _ graph h graph.length_order_le

theorem removes_bypassNext? : Removes bypassNext? := by
  intro graph next h hround
  obtain ⟨⟨id, target⟩, hfound, rfl⟩ := Option.map_eq_some_iff.mp hround
  obtain ⟨found, horder, hjump⟩ := List.exists_of_findSome?_eq_some hfound
  obtain ⟨rfl, hcode, hne⟩ := emptyJump?_eq_some hjump
  have hid := mem_order.mp horder
  refine ⟨(h.toWired.turned (Exit.within_jump.mp (h.exits hcode))).setParents, found, hid, ?_⟩
  intro reached
  exact (reachable_setParents _ reached).trans (reachable_turned_iff h hid hcode hne reached)

theorem removes_mergeNext? : Removes mergeNext? := by
  intro graph next h hround
  obtain ⟨⟨head, tail⟩, hfound, rfl⟩ := Option.map_eq_some_iff.mp hround
  obtain ⟨found, horder, hmerge⟩ := List.exists_of_findSome?_eq_some hfound
  obtain ⟨rfl, hexit, hne, hentry, absorbed, habsorbed, hparents⟩ := mergeable?_eq_some hmerge
  have hhead := mem_order.mp horder
  have htail : graph.Reachable tail := by
    refine .step hhead ?_ (lt_of_block? habsorbed)
    rw [successors, hexit]
    exact List.mem_singleton.mpr rfl
  simp only [merge_eq habsorbed]
  refine ⟨(h.toWired.joined found habsorbed).setParents, tail, htail, ?_⟩
  intro reached
  exact (reachable_setParents _ reached).trans
    (reachable_joined_iff h hhead hexit hne hentry habsorbed hparents reached)

/-! ## Merging -/

/-- No reachable block is the only parent of the block it jumps to. -/
def Merged (graph : Graph) : Prop :=
  ∀ id, graph.Reachable id → graph.mergeable? id = none

theorem merged_iff : graph.Merged ↔ graph.mergeNext? = none := by
  rw [mergeNext?, Option.map_eq_none_iff, List.findSome?_eq_none_iff]
  exact forall_congr' fun id => imp_congr_left mem_order.symm

theorem WellFormed.merged_mergeAll (h : graph.WellFormed) :
    (Graph.mergeAll graph.blocks.size graph).Merged := by
  rw [merged_iff, mergeAll_eq_rounds]
  exact (removes_mergeNext?.exhausts h).eq_none

/-- A block that is reached only by a jump from another one can be merged with it. -/
theorem WellFormed.mergeable?_of_only (h : graph.WellFormed) {head tail : BlockId}
    (hhead : graph.Reachable head) (hexit : graph.exitOf head = .jump tail) (hne : tail ≠ head)
    (hentry : tail ≠ graph.entry)
    (honly : ∀ parent, graph.Reachable parent → tail ∈ graph.successors parent → parent = head) :
    graph.mergeable? head = some (head, tail) := by
  have hedge : tail ∈ graph.successors head := by
    rw [successors, hexit]
    exact List.mem_singleton.mpr rfl
  have htail : graph.Reachable tail := .step hhead hedge (h.targets _ _ hedge)
  obtain ⟨block, hblock⟩ := block?_of_lt htail.lt
  have hparents : block.parents = [head] := by
    rw [h.parents tail block htail hblock]
    refine List.perm_singleton.mp ((List.perm_ext_iff_of_nodup ?_ (List.nodup_singleton _)).mpr ?_)
    · exact List.nodup_range.filter _
    · intro parent
      rw [mem_parentsAmong, mem_order, List.mem_singleton]
      exact ⟨fun hparent => honly parent hparent.2 hparent.1, fun heq => heq ▸ ⟨hedge, hhead⟩⟩
  rw [mergeable?, hexit]
  simp [hne, hentry, hblock, hparents]

end DefUse.Graph
