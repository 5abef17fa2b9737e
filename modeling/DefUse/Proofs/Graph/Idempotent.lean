/-
# `Proofs.Graph.Idempotent` — a pass ends in its normal form

Each pass is there to leave nothing of a kind in reach: no empty block to jump through,
no branch that is always taken, no block to be merged with its only parent, no block
with two statements.  That is the *normal form* of the pass (`Normal`), and every pass
ends in its own (`WellFormed.normal_after`).

A graph in normal form offers the pass nothing to do, so that a second run changes
neither code nor labels nor parents (`WellFormed.after_after`).  For the two loops this
is how they end (`Exhausts`).  The other two passes go over the order once.  Settling a
branch takes away an edge at most, so that all that is in reach afterwards was gone
over.  Cutting a block brings new ones into reach; these have one statement each, and
what else was not gone over yet is still to come (`short_foldl_splitBlock`).
-/
import DefUse.Proofs.Graph.Label
import DefUse.Proofs.Graph.Map

namespace DefUse

namespace Exit

theorem settle_eq_branch {exit : Exit} {condition : Condition} {onTrue onFalse : BlockId}
    (h : exit.settle = .branch condition onTrue onFalse) : condition.isAlwaysTrue = false := by
  cases exit with
  | branch tested yes no =>
      rw [settle] at h
      split at h
      · cases h
      · rename_i hcondition
        cases h
        exact Bool.eq_false_iff.mpr hcondition
  | ret value => cases h
  | jump next => cases h
  | unset => cases h

end Exit

namespace Graph

variable {graph last : Graph}

/-- What a pass is after: there is nothing of its kind in reach. -/
def Normal (graph : Graph) : Pass → Prop
  | .emptyJumps => ∀ id next, graph.Reachable id → graph.code? id = some ⟨[], .jump next⟩ →
      next = id
  | .trueBranches => ∀ id condition onTrue onFalse, graph.Reachable id →
      graph.exitOf id = .branch condition onTrue onFalse → condition.isAlwaysTrue = false
  | .mergeChains => ∀ head tail, graph.Reachable head → graph.exitOf head = .jump tail →
      tail ≠ head → tail ≠ graph.entry → ∃ parent ∈ graph.listed tail,
        parent ≠ head ∧ graph.Reachable parent ∧ tail ∈ graph.successors parent
  | .split => ∀ id, graph.Reachable id → graph.Short id

/-! ## Empty jumps -/

theorem emptyJump?_of_code? {id next : BlockId} (hcode : graph.code? id = some ⟨[], .jump next⟩)
    (hne : next ≠ id) : graph.emptyJump? id = some (id, next) := by
  obtain ⟨⟨index, label, statements, exit, parents⟩, hblock, hsame⟩ := block?_of_code? hcode
  cases hsame
  rw [emptyJump?, hblock]
  exact if_neg hne

theorem normal_of_bypassNext? (h : graph.bypassNext? = none) : graph.Normal .emptyJumps := by
  intro id next hid hcode
  rw [bypassNext?, Option.map_eq_none_iff, List.findSome?_eq_none_iff] at h
  by_contra hne
  have hnone := h id (mem_order.mpr hid)
  rw [emptyJump?_of_code? hcode hne] at hnone
  cases hnone

/-! ## Merging -/

theorem WellFormed.normal_of_merged (h : graph.WellFormed) (hmerged : graph.Merged) :
    graph.Normal .mergeChains := by
  intro head tail hhead hexit hne hentry
  have hedge : tail ∈ graph.successors head := by
    rw [successors, hexit]
    exact List.mem_singleton.mpr rfl
  have htail : graph.Reachable tail := .step hhead hedge (h.targets _ _ hedge)
  -- with no other parent the two blocks could be merged
  by_contra hnone
  have hmergeable := h.mergeable?_of_only hhead hexit hne hentry fun parent hparent hstep => by
    by_contra hother
    exact hnone ⟨parent, (h.mem_listed htail).mpr ⟨hstep, hparent⟩, hother, hparent, hstep⟩
  rw [hmerged head hhead] at hmergeable
  cases hmergeable

/-! ## Parents and true branches -/

theorem setParents_setParents (graph : Graph) : graph.setParents.setParents = graph.setParents := by
  refine ext_block? rfl rfl ?_
  intro id
  rw [block?_setParents, parentsAmong_setParents, block?_setParents, Option.map_map]
  rfl

/-- Settling leaves no branch in reach that is always taken. -/
theorem Wired.normal_settleAll (h : graph.Wired) :
    graph.settleAll.setParents.Normal .trueBranches := by
  intro id condition onTrue onFalse hid hexit
  rw [reachable_setParents] at hid
  have horder := mem_order.mpr (reachable_settleAll h hid)
  obtain ⟨code, hcode⟩ := code?_of_lt (reachable_settleAll h hid).lt
  have hsettled : graph.settleAll.setParents.code? id =
      some { code with exit := code.exit.settle } := by
    simp [code?_settleAll, hcode, horder]
  rw [exitOf_of_code? hsettled] at hexit
  exact Exit.settle_eq_branch hexit

theorem settleAll_of_normal (h : graph.Normal .trueBranches) : graph.settleAll = graph := by
  refine ext_block? rfl rfl ?_
  intro id
  rw [block?_settleAll]
  cases hblock : graph.block? id with
  | none => rfl
  | some block =>
      rw [Option.map_some]
      split
      · rename_i horder
        have hid := mem_order.mp (List.contains_iff_mem.mp horder)
        have hbranch := h id
        rw [exitOf_of_block? hblock] at hbranch
        obtain ⟨index, label, statements, exit, parents⟩ := block
        cases exit with
        | branch condition onTrue onFalse =>
            simp [Exit.settle, hbranch condition onTrue onFalse hid rfl]
        | ret value => rfl
        | jump next => rfl
        | unset => rfl
      · rfl

/-! ## Splitting -/

theorem splitBlock_of_short {id : BlockId} (h : graph.Short id) : graph.splitBlock id = graph := by
  rcases graph.splitBlock_cases id with ⟨hsame, -⟩ |
    ⟨block, first, second, rest, hblock, hstatements, -⟩
  · exact hsame
  · have hle := h block.code (code?_of_block? hblock)
    rw [Block.code_statements, hstatements] at hle
    simp at hle

theorem splitAll_of_normal (h : graph.Normal .split) : graph.splitAll = graph := by
  have hfold : ∀ ids : List BlockId, (∀ id ∈ ids, graph.Short id) →
      ids.foldl splitBlock graph = graph := by
    intro ids
    induction ids with
    | nil => exact fun _ => rfl
    | cons id rest ih =>
        intro hshort
        rw [List.foldl_cons, splitBlock_of_short (hshort id List.mem_cons_self)]
        exact ih fun other hother => hshort other (List.mem_cons_of_mem _ hother)
  exact hfold graph.order fun id hid => h id (mem_order.mp hid)

/-- Going over all blocks that are not short yet makes everything in reach short. -/
theorem short_foldl_splitBlock : ∀ (ids : List BlockId) (graph : Graph), graph.Wired →
    (∀ id, graph.Reachable id → graph.Short id ∨ id ∈ ids) →
    ∀ id, (ids.foldl splitBlock graph).Reachable id → (ids.foldl splitBlock graph).Short id
  | [], _, _, hids => fun id hid => (hids id hid).resolve_right List.not_mem_nil
  | cut :: rest, graph, hwired, hids => by
      rw [List.foldl_cons]
      rcases graph.splitBlock_cases cut with ⟨hsame, hshort⟩ |
        ⟨block, first, second, more, hblock, -, hparted⟩
      · rw [hsame]
        refine short_foldl_splitBlock rest graph hwired ?_
        intro id hid
        rcases hids id hid with h | h
        · exact .inl h
        · rcases List.mem_cons.mp h with rfl | h
          · exact .inl hshort
          · exact .inr h
      · rw [hparted]
        refine short_foldl_splitBlock rest _ (hwired.parted first second more hblock) ?_
        intro id hid
        rcases (reachable_parted_iff hwired hblock (List.cons_ne_nil _ _) id).mp hid with
          hid | ⟨-, hfresh, -⟩
        · rcases hids id hid with h | h
          · exact .inl (short_parted hblock (.inr (.inr h)))
          · rcases List.mem_cons.mp h with rfl | h
            · exact .inl (short_parted hblock (.inl rfl))
            · exact .inr h
        · exact .inl (short_parted hblock (.inr (.inl hfresh)))

theorem Wired.normal_splitAll (h : graph.Wired) : graph.splitAll.setParents.Normal .split := by
  intro id hid code hcode
  rw [reachable_setParents] at hid
  rw [code?_setParents] at hcode
  refine short_foldl_splitBlock graph.order graph h ?_ id hid code hcode
  exact fun other hother => .inr (mem_order.mpr hother)

/-! ## Passes -/

/-- The two loops end, and they end where there is no round left to make. -/
theorem WellFormed.exhausts_after (h : graph.WellFormed) :
    Exhausts bypassNext? graph (graph.after .emptyJumps) ∧
      Exhausts mergeNext? graph (graph.after .mergeChains) := by
  constructor
  · rw [after, bypassAll_eq_rounds]
    exact removes_bypassNext?.exhausts h
  · rw [after, mergeAll_eq_rounds]
    exact removes_mergeNext?.exhausts h

theorem WellFormed.normal_after (h : graph.WellFormed) (pass : Pass) :
    (graph.after pass).Normal pass := by
  cases pass with
  | emptyJumps => exact normal_of_bypassNext? h.exhausts_after.1.eq_none
  | trueBranches => exact h.toWired.normal_settleAll
  | mergeChains => exact (h.mergeAll _).normal_of_merged h.merged_mergeAll
  | split => exact h.toWired.normal_splitAll

/-- The second run of a pass finds nothing to change. -/
theorem WellFormed.after_after (h : graph.WellFormed) (pass : Pass) :
    (graph.after pass).after pass = graph.after pass := by
  have hnormal := h.normal_after pass
  cases pass with
  | emptyJumps =>
      rw [after, bypassAll_eq_rounds]
      exact rounds_of_eq_none h.exhausts_after.1.eq_none _
  | trueBranches =>
      rw [after, settleAll_of_normal hnormal]
      exact setParents_setParents _
  | mergeChains =>
      rw [after, mergeAll_eq_rounds]
      exact rounds_of_eq_none h.exhausts_after.2.eq_none _
  | split =>
      rw [after, splitAll_of_normal hnormal]
      exact setParents_setParents _

end Graph

namespace Program

/-- Wherever passes led, one more ends: its loop is left after finitely many rounds, each
of which puts one block out of reach.  It ends in its normal form, and running it again
changes nothing at all. -/
theorem normal_of_passes {program : Program} {built : Graph} (h : program.graph = .ok built)
    (passes : List Pass) (pass : Pass) :
    ∃ graph last, passes.foldlM Graph.apply built = .ok graph ∧ graph.apply pass = .ok last ∧
      (pass = .emptyJumps → Graph.Exhausts Graph.bypassNext? graph last) ∧
      (pass = .mergeChains → Graph.Exhausts Graph.mergeNext? graph last) ∧
      last.Normal pass ∧ last.apply pass = .ok last := by
  obtain ⟨hpasses, hwf⟩ := (wellFormed_graph h).foldlM_apply passes
  obtain ⟨hpass, hwf'⟩ := hwf.apply pass
  refine ⟨_, _, hpasses, hpass, ?_, ?_, hwf.normal_after pass, ?_⟩
  · rintro rfl
    exact hwf.exhausts_after.1
  · rintro rfl
    exact hwf.exhausts_after.2
  · have hagain := (hwf'.apply pass).1
    rwa [hwf.after_after pass] at hagain

theorem normal_of_passes_sample : ∃ built, sample.graph = .ok built ∧
    ∃ graph last, [Pass.trueBranches, .split].foldlM Graph.apply built = .ok graph ∧
      graph.apply .mergeChains = .ok last ∧
      (Pass.mergeChains = .emptyJumps → Graph.Exhausts Graph.bypassNext? graph last) ∧
      (Pass.mergeChains = .mergeChains → Graph.Exhausts Graph.mergeNext? graph last) ∧
      last.Normal .mergeChains ∧ last.apply .mergeChains = .ok last := by
  obtain ⟨built, hbuilt⟩ := graph_sample
  exact ⟨built, hbuilt, normal_of_passes hbuilt [.trueBranches, .split] .mergeChains⟩

end Program

end DefUse
