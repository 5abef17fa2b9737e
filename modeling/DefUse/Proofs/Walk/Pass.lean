/-
# `Proofs.Walk.Pass` — passes keep the traces of a graph

Every pass is a sequence of small changes, and every change is of one of two
kinds.  It replaces the code of a block by code that is as good as the old one,
or it touches blocks that cannot be reached.

* *empty jumps*: an edge to an empty block is as good as an edge to its target;
* *true branches*: the moves of the exit stay the same, if the view takes the
  true side of such a branch unseen;
* *merging*: a jump is as good as the code of its target; after that the target
  is out of reach and may be emptied;
* *splitting*: a chain of blocks is built out of reach first; then a jump to it is
  as good as the statements it was made of.

So the traces are those of the graph before, and with `Graph.shows_iff` so is what
every walk shows (`Program.shows_passes`).
-/
import DefUse.Proofs.Walk.Trace
import DefUse.Proofs.Graph.Pass
import DefUse.Proofs.Graph.Build

namespace DefUse

open DefUse.Tree

namespace Exit

theorem moves_retarget (view : View) (old new : BlockId) (exit : Exit) :
    (exit.retarget old new).moves view =
      (exit.moves view).map fun move => (move.1, if move.2 = old then new else move.2) := by
  cases exit with
  | ret value => rfl
  | unset => rfl
  | jump next => rfl
  | branch condition onTrue onFalse =>
      rw [retarget, moves, moves]
      cases view condition <;> rfl

theorem retarget_eq_ret {old new : BlockId} {exit : Exit} {value : Option Node} :
    exit.retarget old new = .ret value ↔ exit = .ret value := by
  cases exit <;> simp [retarget]

/-- A view that takes the true side of a branch that is always taken. -/
theorem moves_settle {view : View}
    (hview : ∀ condition, condition.isAlwaysTrue = true → view condition = .taken) (exit : Exit) :
    exit.settle.moves view = exit.moves view := by
  cases exit with
  | ret value => rfl
  | unset => rfl
  | jump next => rfl
  | branch condition onTrue onFalse =>
      rw [settle]
      split
      · rename_i htrue
        simp only [moves, hview condition htrue]
      · rfl

theorem settle_eq_ret {exit : Exit} {value : Option Node} :
    exit.settle = .ret value ↔ exit = .ret value := by
  cases exit with
  | branch condition onTrue onFalse =>
      rw [settle]
      split <;> simp
  | ret value => rfl
  | jump next => rfl
  | unset => rfl

end Exit

namespace Graph

variable {graph : Graph} {view : View}

/-! ## Empty jumps -/

/-- An edge to an empty block is as good as an edge to its target. -/
theorem alike_retarget {id next : BlockId} {target : Code}
    (hid : graph.code? id = some ⟨[], .jump next⟩) (hnext : graph.code? next = some target)
    (statements : List Node) (exit : Exit) :
    graph.Alike view ⟨statements, exit⟩ ⟨statements, exit.retarget id next⟩ := by
  have hexit : graph.Alike view ⟨[], exit⟩ ⟨[], exit.retarget id next⟩ := by
    intro events
    constructor
    · intro h
      cases h with
      | stop => exact .stop
      | finish => exact .finish
      | @move _ event goal code events hmove hgoal htrace =>
          have hmove' := List.mem_map_of_mem
            (f := fun move => (move.1, if move.2 = id then next else move.2)) hmove
          rw [← Exit.moves_retarget] at hmove'
          by_cases heq : goal = id
          · rw [heq, hid] at hgoal
            cases hgoal
            rw [if_pos heq] at hmove'
            exact .move hmove' hnext ((alike_jump hnext [] _).mp htrace)
          · rw [if_neg heq] at hmove'
            exact .move hmove' hgoal htrace
    · generalize hturned : exit.retarget id next = exit'
      intro h
      cases h with
      | stop => exact .stop
      | finish =>
          rw [Exit.retarget_eq_ret] at hturned
          rw [hturned]
          exact .finish
      | @move _ event goal code events hmove hgoal htrace =>
          rw [← hturned, Exit.moves_retarget] at hmove
          obtain ⟨⟨event, before⟩, hbefore, heq⟩ := List.mem_map.mp hmove
          cases heq
          by_cases heq : before = id
          · rw [if_pos heq] at hgoal
            refine .move hbefore (heq ▸ hid) ?_
            exact .silent (List.mem_singleton.mpr rfl) hgoal htrace
          · rw [if_neg heq] at hgoal
            exact .move hbefore hgoal htrace
  have h := hexit.after statements
  rwa [List.append_nil] at h

theorem traces_turned (hwired : graph.Wired) {id next : BlockId}
    (hid : graph.code? id = some ⟨[], .jump next⟩) (hne : next ≠ id) (events : List RunEvent) :
    graph.Traces view events ↔ (graph.turned id next).Traces view events := by
  have hlt := Exit.within_jump.mp (hwired.exits hid)
  have hwired' : (graph.turned id next).Wired := hwired.turned hlt
  obtain ⟨target, hnext⟩ := code?_of_lt hlt
  obtain ⟨target', hnext'⟩ := code?_of_lt ((size_turned id next graph).symm ▸ hlt)
  -- the block that is taken out keeps its own jump
  have hid' : (graph.turned id next).code? id = some ⟨[], .jump next⟩ := by
    rw [code?_turned, hid]
    simp [Exit.retarget, hne]
  have hentry : Exit.jump (graph.turned id next).entry =
      (Exit.jump graph.entry).retarget id next := rfl
  rw [traces_iff_jump hwired, traces_iff_jump hwired', hentry,
    ← alike_retarget hid' hnext' [] _ events]
  refine trace_of_alike _ (fun other => code?_turned id next other graph) ?_ ?_ _ events
  · intro other code _
    split
    · exact alike_retarget hid hnext _ _
    · exact .refl _ _ _
  · intro other code _
    split
    · exact alike_retarget hid' hnext' _ _
    · exact .refl _ _ _

/-! ## True branches -/

theorem traces_settleAll
    (hview : ∀ condition, condition.isAlwaysTrue = true → view condition = .taken)
    (events : List RunEvent) : graph.Traces view events ↔ graph.settleAll.Traces view events := by
  have halike : ∀ (other : Graph) (id : BlockId) (code : Code), other.Alike view code
      (if graph.order.contains id then { code with exit := code.exit.settle } else code) := by
    intro other id code
    split
    · exact alike_of_moves (Exit.moves_settle hview _).symm (fun _ => Exit.settle_eq_ret.symm) _
    · exact .refl _ _ _
  have hentry : graph.settleAll.entry = graph.entry := rfl
  exact traces_of_alike _ hentry (code?_settleAll graph) (fun id code _ => halike _ id code)
    (fun id code _ => halike _ id code) events

/-! ## Merging -/

section Merge

variable {head tail : BlockId} {absorbed : Block}

/-- Copying the target of a jump to the place of the jump keeps the traces. -/
theorem traces_copied (hhead : graph.Reachable head) (hexit : graph.exitOf head = .jump tail)
    (hne : tail ≠ head) (htail : graph.block? tail = some absorbed) (events : List RunEvent) :
    graph.Traces view events ↔ (graph.copied head absorbed.code).Traces view events := by
  obtain ⟨statements, hstatements⟩ := code?_head hhead hexit
  have hcode := code?_of_block? htail
  have hcode' : (graph.copied head absorbed.code).code? tail = some absorbed.code := by
    rw [code?_copied, hcode, Option.map_some, if_neg hne]
  have hentry : (graph.copied head absorbed.code).entry = graph.entry := rfl
  refine traces_of_alike _ hentry (code?_copied head absorbed.code graph) ?_ ?_ events
  · intro id code hid
    split
    · rename_i heq
      rw [heq, hstatements] at hid
      cases hid
      exact alike_jump hcode statements
    · exact .refl _ _ _
  · intro id code hid
    split
    · rename_i heq
      rw [heq, hstatements] at hid
      cases hid
      exact alike_jump hcode' statements
    · exact .refl _ _ _

theorem traces_joined (h : graph.WellFormed) (hhead : graph.Reachable head)
    (hexit : graph.exitOf head = .jump tail) (hne : tail ≠ head) (hentry : tail ≠ graph.entry)
    (htail : graph.block? tail = some absorbed) (hparents : absorbed.parents = [head])
    (events : List RunEvent) :
    graph.Traces view events ↔ (graph.joined head tail absorbed).Traces view events := by
  have hcopied : (graph.copied head absorbed.code).Wired :=
    h.toWired.copied head (h.exits (code?_of_block? htail))
  have hentry' : (graph.copied head absorbed.code).entry =
      (graph.joined head tail absorbed).entry := rfl
  rw [traces_copied hhead hexit hne htail, traces_of_agree hcopied hentry']
  exact fun id hid => code?_copied_eq_joined h hhead hexit hne hentry htail hparents hid

end Merge

/-! ## Splitting -/

/-- A jump to a chain of blocks is as good as the statements it was made of. -/
theorem alike_chain (label : String) (exit : Exit) : ∀ (statements : List Node) (first count : Nat),
    statements ≠ [] →
    (∀ (i : Nat) block, (chain label exit first count statements)[i]? = some block →
      graph.code? (first + i) = some block.code) →
    graph.Alike view ⟨[], .jump first⟩ ⟨statements, exit⟩
  | [], _, _, hne, _ => absurd rfl hne
  | [statement], first, count, _, hcode => by
      have hfirst := hcode 0 _ rfl
      exact alike_jump hfirst []
  | statement :: second :: rest, first, count, _, hcode => by
      have hfirst := hcode 0 _ rfl
      have hrest : graph.Alike view ⟨[], .jump (first + 1)⟩ ⟨second :: rest, exit⟩ := by
        refine alike_chain label exit (second :: rest) (first + 1) (count + 1)
          (List.cons_ne_nil _ _) ?_
        intro i block hblock
        rw [Nat.add_assoc, Nat.add_comm 1]
        exact hcode (i + 1) block hblock
      exact (alike_jump hfirst []).trans (hrest.after [statement])

section Split

variable {id : BlockId} {block : Block} {first second : Node} {rest : List Node}

/-- The chain of a block that is split. -/
def tailOf (graph : Graph) (block : Block) (rest : List Node) : List Block :=
  chain block.label block.exit graph.blocks.size 1 rest

theorem code?_parted (hblock : graph.block? id = some block) (other : BlockId) :
    (graph.parted id block first rest).code? other =
      ((graph.extended (graph.tailOf block rest)).code? other).map fun code =>
        if other = id then ⟨[first], .jump graph.blocks.size⟩ else code := by
  rw [code?, block?_parted hblock, code?, block?_extended]
  by_cases heq : other = id
  · subst heq
    simp only [if_true, lt_of_block? hblock, hblock]
    rfl
  · simp only [if_neg heq, Option.map_id']
    rfl

/-- The chain is there before the block is cut, and out of reach. -/
theorem traces_extended (hwired : graph.Wired) (blocks : List Block) (events : List RunEvent) :
    graph.Traces view events ↔ (graph.extended blocks).Traces view events := by
  have hentry : graph.entry = (graph.extended blocks).entry := rfl
  refine traces_of_agree hwired hentry (fun id hid => ?_) events
  rw [code?, code?, block?_extended, if_pos hid.lt]

theorem traces_parted (hwired : graph.Wired) (hblock : graph.block? id = some block)
    (hstatements : block.statements = first :: second :: rest) (events : List RunEvent) :
    graph.Traces view events ↔
      (graph.parted id block first (second :: rest)).Traces view events := by
  have hid := lt_of_block? hblock
  -- in a graph that has the chain, the cut block is as good as the whole
  have hcut : ∀ {other : Graph}, (∀ i found,
      (graph.tailOf block (second :: rest))[i]? = some found →
        other.code? (graph.blocks.size + i) = some found.code) →
      other.Alike view ⟨first :: second :: rest, block.exit⟩
        ⟨[first], .jump graph.blocks.size⟩ := by
    intro other hchain
    have halike : other.Alike view ⟨[], .jump graph.blocks.size⟩ ⟨second :: rest, block.exit⟩ :=
      alike_chain block.label block.exit (second :: rest) graph.blocks.size 1
        (List.cons_ne_nil _ _) hchain
    exact (halike.after [first]).symm
  have hold : ∀ i found, (graph.tailOf block (second :: rest))[i]? = some found →
      (graph.extended (graph.tailOf block (second :: rest))).code? (graph.blocks.size + i) =
        some found.code := by
    intro i found hfound
    refine code?_of_block? ?_
    rw [block?_extended, if_neg (by lia), Nat.add_sub_cancel_left, hfound]
  have hnew : ∀ i found, (graph.tailOf block (second :: rest))[i]? = some found →
      (graph.parted id block first (second :: rest)).code? (graph.blocks.size + i) =
        some found.code := by
    intro i found hfound
    rw [code?_parted hblock, hold i found hfound, Option.map_some, if_neg (by lia)]
  have hentry : (graph.parted id block first (second :: rest)).entry =
      (graph.extended (graph.tailOf block (second :: rest))).entry := rfl
  have hcode : ∀ other code,
      (graph.extended (graph.tailOf block (second :: rest))).code? other = some code →
      other = id → code = ⟨first :: second :: rest, block.exit⟩ := by
    intro other code hcode heq
    rw [heq, code?, block?_extended, if_pos hid, hblock] at hcode
    cases hcode
    rw [Block.code, hstatements]
  rw [traces_extended hwired (graph.tailOf block (second :: rest)) events]
  refine traces_of_alike _ hentry (code?_parted hblock) ?_ ?_ events
  · intro other code hother
    split
    · rename_i heq
      rw [hcode other code hother heq]
      exact hcut hold
    · exact .refl _ _ _
  · intro other code hother
    split
    · rename_i heq
      rw [hcode other code hother heq]
      exact hcut hnew
    · exact .refl _ _ _

end Split

/-! ## Passes -/

theorem kept_traces (graph : Graph) (view : View) (events : List RunEvent) :
    Kept fun other => graph.Traces view events ↔ other.Traces view events where
  setParents := by
    intro other hsame
    rw [traces_setParents]
    exact hsame
  turned := by
    intro other id next hother _ hcode hne hsame
    rw [← traces_turned hother.toWired hcode hne]
    exact hsame
  joined := by
    intro other head tail absorbed hother hhead hexit hne hentry htail hparents hsame
    rw [← traces_joined hother hhead hexit hne hentry htail hparents]
    exact hsame
  parted := by
    intro other id block first second rest hother hblock hstatements hsame
    rw [← traces_parted hother hblock hstatements]
    exact hsame

/-- A sequence of passes keeps the traces; if branches are settled in it, those of a view that
takes their true side. -/
theorem traces_foldl_after (h : graph.WellFormed) (passes : List Pass)
    (hview : .trueBranches ∈ passes →
      ∀ condition, condition.isAlwaysTrue = true → view condition = .taken)
    (events : List RunEvent) :
    graph.Traces view events ↔ (passes.foldl after graph).Traces view events := by
  refine (kept_traces graph view events).foldl_after passes ?_ h Iff.rfl
  intro hmem other _ hsame
  rw [← traces_settleAll (hview hmem)]
  exact hsame

end Graph

theorem Condition.outlook_isAlwaysTrue {condition : Condition}
    (h : condition.isAlwaysTrue = true) : outlook isAlwaysTrue condition = .taken := by
  cases condition with
  | always => rfl
  | test node => simp only [outlook, question?, if_pos h]

/-- Any sequence of passes over the graph of a program succeeds, and under every oracle the walk
of the result shows what the walk of the graph shows. -/
theorem Program.shows_passes {program : Program} {built : Graph} (h : program.graph = .ok built)
    (passes : List Pass) :
    ∃ graph, passes.foldlM Graph.apply built = .ok graph ∧ ∀ oracle events,
      graph.Shows Condition.isAlwaysTrue oracle events ↔
        built.Shows Condition.isAlwaysTrue oracle events := by
  have hbuilt := wellFormed_graph h
  obtain ⟨hok, hgraph⟩ := hbuilt.foldlM_apply passes
  refine ⟨_, hok, ?_⟩
  intro oracle events
  rw [Graph.shows_iff hgraph.toWired, Graph.shows_iff hbuilt.toWired,
    ← Graph.traces_foldl_after hbuilt passes fun _ _ => Condition.outlook_isAlwaysTrue]

theorem Program.shows_passes_sample : ∃ built graph, sample.graph = .ok built ∧
    [.split, .mergeChains, .trueBranches, .emptyJumps].foldlM Graph.apply built = .ok graph ∧
    ∀ oracle events, graph.Shows Condition.isAlwaysTrue oracle events ↔
      built.Shows Condition.isAlwaysTrue oracle events := by
  obtain ⟨built, hbuilt⟩ := graph_sample
  obtain ⟨graph, hgraph, hshows⟩ :=
    shows_passes hbuilt [.split, .mergeChains, .trueBranches, .emptyJumps]
  exact ⟨built, graph, hbuilt, hgraph, hshows⟩

end DefUse
