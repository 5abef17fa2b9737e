/-
# `Proofs.Dependency.Convergence` — how long the iteration takes, and what a cap costs

The iteration takes blocks from a queue that grows with every visit, so the queue alone
does not tell when it ends.  What does is the *weight* of the records: a block that was
visited weighs one, and one more for each definition that is known to have reached it.
A visit is made only if it brings something new, so it adds to the weight
(`Flow.Bounded.visit`); and the weight is bounded by the number of reachable blocks times
one more than the number of definitions in them.  So is the number of visits
(`Program.flow_converges`).

A cap on the visits only cuts the iteration short.  With a larger cap it goes on from
where it was cut (`Flow.run_resumes`), and from there records only grow, so that what was
noted of a read stays (`Program.flow_monotone`).
-/
import Mathlib
import DefUse.Proofs.Dependency.Origin
import DefUse.Proofs.Names.Binding

namespace DefUse

open DefUse.Tree

/-! ## Definitions of a graph -/

/-- The assignment that is made, if the action is a write. -/
def Action.written? : Action → Option Assignment
  | .read _ => none
  | .write assignment => some assignment

theorem Action.written?_eq_some {action : Action} {assignment : Assignment} :
    action.written? = some assignment ↔ action = .write assignment := by
  cases action with
  | read site => exact ⟨nofun, nofun⟩
  | write other =>
      show some other = some assignment ↔ _
      rw [Option.some.injEq, Action.write.injEq]

namespace Graph

/-- The assignments in reachable blocks whose target has a name, each once. -/
def namedWrites (graph : Graph) (names : Names) : List Assignment :=
  (((graph.order.flatMap graph.actionsAt).filterMap Action.written?).filter
    fun assignment => (names.get? assignment.target).isSome).dedup

/-- How often the iteration can visit blocks: each block once, and once more for every definition
that can reach it. -/
def visitBound (graph : Graph) (names : Names) : Nat :=
  graph.order.length * ((graph.namedWrites names).length + 1)

/-- The definitions that reachable blocks make. -/
def definitions (graph : Graph) (names : Names) : Definitions :=
  (graph.namedWrites names).filterMap fun assignment =>
    (names.get? assignment.target).map (·, assignment)

variable {graph : Graph} {names : Names}

theorem mem_namedWrites {assignment : Assignment} : assignment ∈ graph.namedWrites names ↔
    (∃ id, graph.Reachable id ∧ .write assignment ∈ graph.actionsAt id) ∧
      (names.get? assignment.target).isSome = true := by
  rw [namedWrites, List.mem_dedup, List.mem_filter, List.mem_filterMap]
  simp only [Action.written?_eq_some, exists_eq_right, List.mem_flatMap, mem_order]

theorem mem_definitions {name : String} {assignment : Assignment} :
    (name, assignment) ∈ graph.definitions names ↔
      (∃ id, graph.Reachable id ∧ .write assignment ∈ graph.actionsAt id) ∧
        names.get? assignment.target = some name := by
  rw [definitions, List.mem_filterMap]
  constructor
  · rintro ⟨other, hother, heq⟩
    obtain ⟨found, hfound, heq⟩ := Option.map_eq_some_iff.mp heq
    cases heq
    exact ⟨(mem_namedWrites.mp hother).1, hfound⟩
  · rintro ⟨hwrite, hname⟩
    refine ⟨assignment, mem_namedWrites.mpr ⟨hwrite, ?_⟩, ?_⟩
    · rw [hname]
      rfl
    · rw [hname]
      rfl

/-- An assignment makes one definition. -/
theorem card_definitions_le (graph : Graph) (names : Names) :
    (graph.definitions names).toFinset.card ≤ (graph.namedWrites names).length :=
  (List.toFinset_card_le _).trans (List.length_filterMap_le _ _)

end Graph

/-- The effects that are looked up are those of reachable blocks. -/
def FlowProblem.Sourced (problem : FlowProblem) : Prop :=
  ∀ id effects, problem.effects.lookup id = some effects →
    ∃ other, problem.graph.Reachable other ∧ effects.actions = problem.graph.actionsAt other

theorem Graph.sourced {program : Program} {graph : Graph} {names : Names}
    {effects : List (BlockId × BlockEffects)} (h : graph.effects = .ok effects) :
    FlowProblem.Sourced ⟨program, graph, names, effects⟩ := by
  intro id found hfound
  obtain ⟨block, hblock, hpair⟩ := exists_of_mem_mapM h (Binder.mem_of_lookup hfound)
  obtain ⟨steps, hsteps, hpair⟩ := exists_of_bind_eq_ok hpair
  cases hpair
  obtain ⟨other, hother, hblock⟩ := List.mem_filterMap.mp hblock
  refine ⟨other, mem_order.mp hother, ?_⟩
  rw [Block.actions_of_effects hsteps, actionsAt_of_code? (code?_of_block? hblock)]

namespace Flow

/-! ## How a run ends -/

/-- A run of the loop, with the number of rounds it takes. -/
inductive Loops (problem : FlowProblem) (maxVisits : Nat) : Nat → Queue → Flow → Flow → Prop
  | done {flow : Flow} : Loops problem maxVisits 0 [] flow flow
  | skip {rounds : Nat} {id : BlockId} {incoming : Definitions} {rest : Queue} {flow last : Flow} :
      flow.covers id incoming = true → Loops problem maxVisits rounds rest flow last →
      Loops problem maxVisits (rounds + 1) ((id, incoming) :: rest) flow last
  | visit {rounds : Nat} {id : BlockId} {incoming : Definitions} {rest : Queue} {flow last : Flow} :
      flow.covers id incoming = false → flow.visits < maxVisits →
      Loops problem maxVisits rounds
        (rest ++ (problem.graph.successors id).map fun next =>
          (next, (flow.passage problem id incoming).definitions))
        (flow.visit problem id incoming) last →
      Loops problem maxVisits (rounds + 1) ((id, incoming) :: rest) flow last
  | giveUp {id : BlockId} {incoming : Definitions} {rest : Queue} {flow : Flow} :
      flow.covers id incoming = false → maxVisits ≤ flow.visits →
      Loops problem maxVisits 1 ((id, incoming) :: rest) flow (flow.giveUp maxVisits)

variable {problem : FlowProblem} {maxVisits : Nat} {queue rest : Queue} {flow last : Flow}
  {id : BlockId} {incoming : Definitions}

/-- The loop ends, after a round for each block in the queue and two for each visit. -/
theorem loops_run (problem : FlowProblem) (maxVisits : Nat) (queue : Queue) (flow : Flow) :
    flow.visits ≤ (run problem maxVisits queue flow).visits ∧ ∃ rounds,
      rounds + 2 * flow.visits ≤
        queue.length + 2 * (run problem maxVisits queue flow).visits ∧
      Loops problem maxVisits rounds queue flow (run problem maxVisits queue flow) := by
  fun_induction run problem maxVisits queue flow with
  | case1 flow => exact ⟨Nat.le_refl _, 0, Nat.le_refl _, .done⟩
  | case2 flow id incoming rest hcovers ih =>
      obtain ⟨hvisits, rounds, hrounds, hloops⟩ := ih
      refine ⟨hvisits, rounds + 1, ?_, .skip hcovers hloops⟩
      rw [List.length_cons]
      omega
  | case3 flow id incoming rest hcovers hlt leaving next ih =>
      obtain ⟨hvisits, rounds, hrounds, hloops⟩ := ih
      have hnext : next.length ≤ 2 := by
        rw [List.length_map]
        exact Graph.length_successors_le problem.graph id
      have hvisit : (flow.visit problem id incoming).visits = flow.visits + 1 := rfl
      rw [hvisit] at hvisits hrounds
      refine ⟨by omega, rounds + 1, ?_, .visit (Bool.not_eq_true _ ▸ hcovers) hlt hloops⟩
      rw [List.length_append] at hrounds
      rw [List.length_cons]
      omega
  | case4 flow id incoming rest hcovers hlt =>
      refine ⟨Nat.le_refl _, 1, ?_, .giveUp (Bool.not_eq_true _ ▸ hcovers) (Nat.le_of_not_lt hlt)⟩
      rw [List.length_cons]
      show 1 + 2 * flow.visits ≤ rest.length + 1 + 2 * flow.visits
      omega

/-- What skipping and visiting keep holds when the queue is empty or the visits are used up. -/
theorem Loops.ends {P : Queue → Flow → Prop} {rounds : Nat}
    (skip : ∀ id incoming rest flow, P ((id, incoming) :: rest) flow →
      flow.covers id incoming = true → P rest flow)
    (visit : ∀ id incoming rest flow, P ((id, incoming) :: rest) flow →
      flow.covers id incoming = false → flow.visits < maxVisits →
      P (rest ++ (problem.graph.successors id).map fun next =>
          (next, (flow.passage problem id incoming).definitions))
        (flow.visit problem id incoming))
    (hloops : Loops problem maxVisits rounds queue flow last) (h : P queue flow) :
    P [] last ∨ ∃ id incoming rest cut, P ((id, incoming) :: rest) cut ∧
      cut.covers id incoming = false ∧ maxVisits ≤ cut.visits ∧ last = cut.giveUp maxVisits := by
  induction hloops with
  | done => exact .inl h
  | skip hcovers _ ih => exact ih (skip _ _ _ _ h hcovers)
  | visit hcovers hlt _ ih => exact ih (visit _ _ _ _ h hcovers hlt)
  | giveUp hcovers hle => exact .inr ⟨_, _, _, _, h, hcovers, hle, rfl⟩

/-! ## The weight of the records -/

/-- One for a block that was visited, and one for each definition that has reached it. -/
def weight (flow : Flow) (id : BlockId) : Nat :=
  match flow.recorded.lookup id with
  | some known => known.toFinset.card + 1
  | none => 0

theorem weight_eq_of_lookup {known : Definitions} (h : flow.recorded.lookup id = some known) :
    flow.weight id = known.toFinset.card + 1 := by
  rw [weight, h]

theorem card_lt_card {known larger : Definitions} (hsubset : known ⊆ larger)
    {definition : String × Assignment} (hmem : definition ∈ larger) (hnew : definition ∉ known) :
    known.toFinset.card < larger.toFinset.card := by
  refine Finset.card_lt_card (Finset.ssubset_iff_of_subset ?_ |>.mpr ⟨definition, ?_, ?_⟩)
  · exact fun other hother => List.mem_toFinset.mpr (hsubset (List.mem_toFinset.mp hother))
  · exact List.mem_toFinset.mpr hmem
  · exact fun hknown => hnew (List.mem_toFinset.mp hknown)

/-- What comes in and is not covered is new. -/
theorem exists_new {known : Definitions} (hknown : flow.recorded.lookup id = some known)
    (hcovers : flow.covers id incoming = false) : ∃ definition ∈ incoming, definition ∉ known := by
  have hnot : ¬ ∀ definition ∈ incoming, definition ∈ known := by
    rw [← Definitions.covers_iff, Bool.not_eq_true]
    rwa [covers, hknown] at hcovers
  simpa using hnot

/-- A visit adds to the weight of its block. -/
theorem weight_lt_visit (problem : FlowProblem) (hcovers : flow.covers id incoming = false) :
    flow.weight id < (flow.visit problem id incoming).weight id := by
  have hvisit : (flow.visit problem id incoming).recorded.lookup id =
      some (flow.arriving id incoming) := by
    rw [lookup_visit, if_pos rfl]
  rw [weight_eq_of_lookup hvisit]
  cases hknown : flow.recorded.lookup id with
  | none =>
      rw [weight, hknown]
      exact Nat.succ_pos _
  | some known =>
      rw [weight_eq_of_lookup hknown, Nat.succ_lt_succ_iff]
      obtain ⟨definition, hincoming, hnew⟩ := exists_new hknown hcovers
      refine card_lt_card ?_ (mem_arriving.mpr (.inr hincoming)) hnew
      exact fun other hother => mem_arriving.mpr (.inl ⟨known, hknown, hother⟩)

/-- A visit leaves the weight of other blocks. -/
theorem weight_visit_of_ne (problem : FlowProblem) {other : BlockId} (h : other ≠ id) :
    (flow.visit problem id incoming).weight other = flow.weight other := by
  rw [weight, weight, lookup_visit, if_neg h]

/-- The weight of all reachable blocks. -/
def total (problem : FlowProblem) (flow : Flow) : Nat :=
  ∑ id ∈ problem.graph.order.toFinset, flow.weight id

/-- A visit of a reachable block adds to the whole weight. -/
theorem total_lt_visit (hid : problem.graph.Reachable id)
    (hcovers : flow.covers id incoming = false) :
    flow.total problem < (flow.visit problem id incoming).total problem := by
  refine Finset.sum_lt_sum ?_ ⟨id, ?_, weight_lt_visit problem hcovers⟩
  · intro other _
    by_cases heq : other = id
    · rw [heq]
      exact (weight_lt_visit problem hcovers).le
    · exact (weight_visit_of_ne problem heq).ge
  · rw [List.mem_toFinset]
    exact Graph.mem_order.mpr hid

/-! ## The bound -/

/-- Only definitions of the graph are around, and there were no more visits than the weight. -/
structure Bounded (problem : FlowProblem) (queue : Queue) (flow : Flow) : Prop where
  recorded : ∀ id known, flow.recorded.lookup id = some known →
    known ⊆ problem.graph.definitions problem.names
  queued : ∀ id incoming, (id, incoming) ∈ queue → problem.graph.Reachable id ∧
    incoming ⊆ problem.graph.definitions problem.names
  visits : flow.visits ≤ flow.total problem

theorem bounded_start (hclosed : problem.graph.Closed) :
    Bounded problem [(problem.graph.entry, [])] start where
  recorded := fun _ _ h => nomatch h
  queued := by
    intro id incoming h
    cases List.mem_singleton.mp h
    exact ⟨.entry hclosed.entry, List.nil_subset _⟩
  visits := Nat.zero_le _

theorem Bounded.skip (h : Bounded problem ((id, incoming) :: rest) flow) :
    Bounded problem rest flow :=
  ⟨h.recorded, fun other waiting hmem => h.queued other waiting (List.mem_cons_of_mem _ hmem),
    h.visits⟩

theorem Bounded.arriving (h : Bounded problem ((id, incoming) :: rest) flow) :
    flow.arriving id incoming ⊆ problem.graph.definitions problem.names := by
  intro definition hmem
  rcases mem_arriving.mp hmem with ⟨known, hknown, hmem⟩ | hmem
  · exact h.recorded id known hknown hmem
  · exact (h.queued id incoming List.mem_cons_self).2 hmem

/-- What a block hands on are definitions of the graph. -/
theorem Bounded.leaving (hsourced : problem.Sourced)
    (h : Bounded problem ((id, incoming) :: rest) flow) :
    (flow.passage problem id incoming).definitions ⊆
      problem.graph.definitions problem.names := by
  rw [passage]
  cases hlookup : problem.effects.lookup id with
  | none => exact h.arriving
  | some effects =>
      obtain ⟨other, hother, hactions⟩ := hsourced id effects hlookup
      show (Passage.through _ _ effects _).definitions ⊆ _
      rw [Passage.through_eq, Passage.definitions_foldl]
      rintro ⟨name, assignment⟩ hmem
      rcases Definitions.mem_after.mp hmem with ⟨hname, before, after, heq, -⟩ | ⟨hmem, -⟩
      · refine Graph.mem_definitions.mpr ⟨⟨other, hother, ?_⟩, hname⟩
        rw [← hactions, heq]
        exact List.mem_append_right _ List.mem_cons_self
      · exact h.arriving hmem

theorem Bounded.visit (hclosed : problem.graph.Closed) (hsourced : problem.Sourced)
    (h : Bounded problem ((id, incoming) :: rest) flow)
    (hcovers : flow.covers id incoming = false) :
    Bounded problem (rest ++ (problem.graph.successors id).map fun next =>
        (next, (flow.passage problem id incoming).definitions))
      (flow.visit problem id incoming) where
  recorded := by
    intro other known hknown
    rw [lookup_visit] at hknown
    split at hknown
    · cases hknown
      exact h.arriving
    · exact h.recorded other known hknown
  queued := by
    intro other waiting hmem
    rcases List.mem_append.mp hmem with hmem | hmem
    · exact h.queued other waiting (List.mem_cons_of_mem _ hmem)
    · obtain ⟨next, hnext, heq⟩ := List.mem_map.mp hmem
      cases heq
      have hid := (h.queued id incoming List.mem_cons_self).1
      exact ⟨.step hid hnext (hclosed.targets _ _ hnext), h.leaving hsourced⟩
  visits :=
    Nat.succ_le_of_lt (Nat.lt_of_le_of_lt h.visits
      (total_lt_visit (h.queued id incoming List.mem_cons_self).1 hcovers))

theorem Bounded.weight_le (h : Bounded problem queue flow) (other : BlockId) :
    flow.weight other ≤ (problem.graph.namedWrites problem.names).length + 1 := by
  rw [weight]
  split
  · rename_i known hknown
    refine Nat.succ_le_succ (Nat.le_trans (Finset.card_le_card ?_)
      (problem.graph.card_definitions_le problem.names))
    intro definition hmem
    rw [List.mem_toFinset] at hmem ⊢
    exact h.recorded other known hknown hmem
  · exact Nat.zero_le _

/-- A block that is still to be visited does not weigh all that it can. -/
theorem Bounded.weight_lt (h : Bounded problem ((id, incoming) :: rest) flow)
    (hcovers : flow.covers id incoming = false) :
    flow.weight id < (problem.graph.namedWrites problem.names).length + 1 := by
  cases hknown : flow.recorded.lookup id with
  | none =>
      rw [weight, hknown]
      exact Nat.succ_pos _
  | some known =>
      obtain ⟨definition, hincoming, hnew⟩ := exists_new hknown hcovers
      have hmem := (h.queued id incoming List.mem_cons_self).2 hincoming
      rw [weight_eq_of_lookup hknown, Nat.succ_lt_succ_iff]
      exact Nat.lt_of_lt_of_le (card_lt_card (h.recorded id known hknown) hmem hnew)
        (problem.graph.card_definitions_le problem.names)

/-- The bound as a sum over the reachable blocks. -/
theorem visitBound_eq_sum (graph : Graph) (names : Names) : graph.visitBound names =
    ∑ _id ∈ graph.order.toFinset, ((graph.namedWrites names).length + 1) := by
  rw [Finset.sum_const, List.toFinset_card_of_nodup graph.nodup_order, Nat.nsmul_eq_mul]
  rfl

theorem Bounded.visits_le (h : Bounded problem queue flow) :
    flow.visits ≤ problem.graph.visitBound problem.names := by
  rw [visitBound_eq_sum]
  exact h.visits.trans (Finset.sum_le_sum fun other _ => h.weight_le other)

/-- As long as something is to be done, the bound is not reached. -/
theorem Bounded.visits_lt (h : Bounded problem ((id, incoming) :: rest) flow)
    (hcovers : flow.covers id incoming = false) :
    flow.visits < problem.graph.visitBound problem.names := by
  rw [visitBound_eq_sum]
  refine Nat.lt_of_le_of_lt h.visits (Finset.sum_lt_sum (fun other _ => h.weight_le other)
    ⟨id, ?_, h.weight_lt hcovers⟩)
  rw [List.mem_toFinset]
  exact Graph.mem_order.mpr (h.queued id incoming List.mem_cons_self).1

/-- A run makes no more visits than the cap and the bound allow; if the cap allows what the bound
does, it is not cut short. -/
theorem Loops.bounded (hclosed : problem.graph.Closed) (hsourced : problem.Sourced) {rounds : Nat}
    (hloops : Loops problem maxVisits rounds queue flow last) (h : Bounded problem queue flow)
    (hvisits : flow.visits ≤ maxVisits) (huncut : flow.truncated = false) :
    last.visits ≤ min maxVisits (problem.graph.visitBound problem.names) ∧
      (problem.graph.visitBound problem.names ≤ maxVisits → last.truncated = false) := by
  have hends := hloops.ends
    (P := fun queue flow =>
      Bounded problem queue flow ∧ flow.visits ≤ maxVisits ∧ flow.truncated = false)
    (fun _ _ _ _ hstep _ => ⟨hstep.1.skip, hstep.2⟩)
    (fun _ _ _ _ hstep hcovers hlt => ⟨hstep.1.visit hclosed hsourced hcovers, hlt, hstep.2.2⟩)
    ⟨h, hvisits, huncut⟩
  rcases hends with ⟨hlast, hle, huncut⟩ |
    ⟨id, incoming, rest, cut, ⟨hcut, hle, -⟩, hcovers, hfull, rfl⟩
  · exact ⟨Nat.le_min.mpr ⟨hle, hlast.visits_le⟩, fun _ => huncut⟩
  · refine ⟨Nat.le_min.mpr ⟨hle, hcut.visits_le⟩, fun hbound => ?_⟩
    exact absurd (hcut.visits_lt hcovers) (Nat.not_lt.mpr (hbound.trans hfull))

/-! ## Two caps -/

/-- With a larger cap a run ends in the same way, or it goes on from where it was cut. -/
theorem run_resumes {P : Queue → Flow → Prop}
    (skip : ∀ id incoming rest flow, P ((id, incoming) :: rest) flow →
      flow.covers id incoming = true → P rest flow)
    (visit : ∀ id incoming rest flow, P ((id, incoming) :: rest) flow →
      P (rest ++ (problem.graph.successors id).map fun next =>
          (next, (flow.passage problem id incoming).definitions))
        (flow.visit problem id incoming))
    {fewer more : Nat} (hle : fewer ≤ more) (queue : Queue) (flow : Flow) (h : P queue flow) :
    run problem more queue flow = run problem fewer queue flow ∨
      ∃ rest cut, P rest cut ∧ run problem fewer queue flow = cut.giveUp fewer ∧
        run problem more queue flow = run problem more rest cut := by
  fun_induction run problem fewer queue flow with
  | case1 flow => exact .inl (by rw [run])
  | case2 flow id incoming rest hcovers ih =>
      rw [run, if_pos hcovers]
      exact ih (skip _ _ _ _ h hcovers)
  | case3 flow id incoming rest hcovers hlt leaving next ih =>
      rw [run, if_neg hcovers, if_pos (Nat.lt_of_lt_of_le hlt hle)]
      exact ih (visit _ _ _ _ h)
  | case4 flow id incoming rest => exact .inr ⟨(id, incoming) :: rest, flow, h, rfl, rfl⟩

/-- All that had reached a block before is still known to have reached it. -/
def Grown (flow later : Flow) : Prop :=
  ∀ id known, flow.recorded.lookup id = some known →
    ∃ known', later.recorded.lookup id = some known' ∧ known ⊆ known'

theorem grown_refl (flow : Flow) : Grown flow flow :=
  fun _ known hknown => ⟨known, hknown, fun _ h => h⟩

theorem Grown.visit {earlier : Flow} (h : Grown earlier flow) (problem : FlowProblem) (id : BlockId)
    (incoming : Definitions) : Grown earlier (flow.visit problem id incoming) := by
  intro other known hknown
  obtain ⟨known', hknown', hsubset⟩ := h other known hknown
  rw [lookup_visit]
  split
  · rename_i heq
    subst heq
    exact ⟨_, rfl, fun _ hmem => mem_arriving.mpr (.inl ⟨known', hknown', hsubset hmem⟩)⟩
  · exact ⟨known', hknown', hsubset⟩

/-- More definitions before some actions are more definitions after them. -/
theorem reaching_after_subset {names : Names} {known known' : Definitions} (h : known ⊆ known')
    (actions : List Action) (name : String) :
    (Definitions.after names actions known).reaching name ⊆
      (Definitions.after names actions known').reaching name := by
  intro assignment hmem
  rw [Definitions.mem_reaching, Definitions.mem_after] at hmem ⊢
  exact hmem.imp_right fun ⟨hknown, hunwritten⟩ => ⟨h hknown, hunwritten⟩

/-- Whatever was noted of a read at some point, the rest of the run keeps and may add to. -/
theorem Invariant.exists_reads_run (hproper : problem.Proper) (h : Invariant problem queue flow)
    (maxVisits : Nat) {site : Site} {assignments : List Assignment}
    (hnote : (site, assignments) ∈ flow.reads) :
    ∃ assignments', (site, assignments') ∈ (run problem maxVisits queue flow).reads ∧
      assignments ⊆ assignments' := by
  obtain ⟨rest, last, ⟨hlast, hgrown⟩, hreads⟩ := Flow.exists_reads_run problem maxVisits
    (P := fun queue later => Invariant problem queue later ∧ Grown flow later)
    (fun _ _ _ _ hstep hcovers => ⟨hstep.1.skip hcovers, hstep.2⟩)
    (fun _ _ _ _ hstep => ⟨hstep.1.visit hproper, hstep.2.visit _ _ _⟩) queue flow
    ⟨h, grown_refl flow⟩
  obtain ⟨id, known, before, after, hknown, hactions, rfl⟩ := (h.noted site assignments).mp hnote
  obtain ⟨known', hknown', hsubset⟩ := hgrown id known hknown
  refine ⟨_, ?_, reaching_after_subset hsubset before _⟩
  rw [hreads]
  exact (hlast.noted site _).mpr ⟨id, known', before, after, hknown', hactions, rfl⟩

/-- No read is noted twice, however the run ends. -/
theorem nodup_reads_run (hproper : problem.Proper) (h : Invariant problem queue flow)
    (maxVisits : Nat) : ((run problem maxVisits queue flow).reads.map Prod.fst).Nodup := by
  obtain ⟨rest, last, hlast, hreads⟩ := exists_reads_run problem maxVisits (P := Invariant problem)
    (fun _ _ _ _ hstep hcovers => hstep.skip hcovers) (fun _ _ _ _ hstep => hstep.visit hproper)
    queue flow h
  rw [hreads]
  exact hlast.ordered.nodup

end Flow

/-! ## The analysis -/

namespace Program

variable {program : Program} {graph : Graph} {names : Names}

/-- The iteration ends for every cap, after at most two rounds for each visit and one more; and it
is not cut short if the cap allows to visit each of the reachable blocks once, and once more for
every assignment in them to a variable with a name. -/
theorem flow_converges (hclosed : graph.Closed) {effects : List (BlockId × BlockEffects)}
    (heffects : graph.effects = .ok effects) (maxVisits : Nat) :
    ∃ rounds last,
      Flow.Loops ⟨program, graph, names, effects⟩ maxVisits rounds [(graph.entry, [])] Flow.start
        last ∧
      rounds ≤ 2 * min maxVisits (graph.visitBound names) + 1 ∧
      program.flow graph names maxVisits = .ok last.dependencies ∧
      (graph.order.length * ((graph.namedWrites names).length + 1) ≤ maxVisits →
        last.dependencies.truncated = false) := by
  obtain ⟨-, rounds, hrounds, hloops⟩ :=
    Flow.loops_run ⟨program, graph, names, effects⟩ maxVisits [(graph.entry, [])] Flow.start
  obtain ⟨hvisits, huncut⟩ := hloops.bounded hclosed (Graph.sourced heffects)
    (Flow.bounded_start hclosed) (Nat.zero_le _) rfl
  refine ⟨rounds, _, hloops, ?_, ?_, huncut⟩
  · have hstart : Flow.start.visits = 0 := rfl
    rw [hstart, List.length_singleton] at hrounds
    dsimp only at hvisits
    omega
  · rw [flow, heffects]
    rfl

theorem flow_converges_sample : ∃ graph found, sample.graph = .ok graph ∧
    graph.order.length = 4 ∧ (graph.namedWrites sample.names).length = 2 ∧
    sample.flow graph sample.names 12 = .ok found ∧ found.truncated = false := by
  have hrun : (do
      let graph ← sample.graph
      let effects ← graph.effects
      return (graph.order.length, (graph.namedWrites sample.names).length)) = .ok (4, 2) := by
    cbv
  obtain ⟨graph, hgraph, hrun⟩ := exists_of_bind_eq_ok hrun
  obtain ⟨effects, heffects, hrun⟩ := exists_of_bind_eq_ok hrun
  have hsize : graph.order.length = 4 ∧ (graph.namedWrites sample.names).length = 2 := by
    simpa [pure, Except.pure] using hrun
  obtain ⟨-, last, -, -, hflow, huncut⟩ := @flow_converges sample graph sample.names
    (wellFormed_graph hgraph).toWired.closed effects heffects 12
  refine ⟨graph, _, hgraph, hsize.1, hsize.2, hflow, huncut ?_⟩
  rw [hsize.1, hsize.2]

/-- A smaller cap finds no more: the reads found with it are found with a larger one as well, with
the same assignments and maybe others; and a run that is not cut short is that of every larger
cap. -/
theorem flow_monotone {built : Graph} {passes : List Pass} {fewer more : Nat}
    {found found' : Dependencies}
    (hbuilt : program.graph = .ok built) (hpasses : passes.foldlM Graph.apply built = .ok graph)
    (hroles : program.SingleRoles) (hle : fewer ≤ more)
    (hfewer : program.flow graph names fewer = .ok found)
    (hmore : program.flow graph names more = .ok found') :
    (found'.reads.map Prod.fst).Nodup ∧
      (∀ site assignments, (site, assignments) ∈ found.reads →
        ∃ assignments', (site, assignments') ∈ found'.reads ∧ assignments ⊆ assignments') ∧
      (found'.truncated = true → found.truncated = true) ∧
      (found.truncated = false → found'.reads = found.reads ∧ found'.truncated = false) := by
  obtain ⟨hok, hgraph⟩ := (wellFormed_graph hbuilt).foldlM_apply passes
  cases hok.symm.trans hpasses
  obtain ⟨effects, heffects, hfewer⟩ := exists_of_bind_eq_ok hfewer
  obtain ⟨effects', heffects', hmore⟩ := exists_of_bind_eq_ok hmore
  cases heffects.symm.trans heffects'
  cases hfewer
  cases hmore
  have hproper : FlowProblem.Proper ⟨program, passes.foldl Graph.after built, names, effects⟩ :=
    ⟨hgraph.toWired, fun _ hid => Graph.lookup_effects hgraph.toWired heffects hid,
      readsApart hbuilt hroles passes⟩
  have hstart := Flow.invariant_start hproper
  refine ⟨Flow.nodup_reads_run hproper hstart more, ?_⟩
  rcases Flow.run_resumes (fun _ _ _ _ h hcovers => h.skip hcovers)
    (fun _ _ _ _ h => h.visit hproper) hle _ _ hstart with hsame | ⟨rest, cut, hcut, hfewer, hmore⟩
  · dsimp only at hsame
    rw [hsame]
    exact ⟨fun _ assignments hnote => ⟨assignments, hnote, List.Subset.refl _⟩, id,
      fun huncut => ⟨rfl, huncut⟩⟩
  · dsimp only at hfewer hmore
    rw [hfewer, hmore]
    refine ⟨fun _ _ hnote => hcut.exists_reads_run hproper more hnote, fun _ => rfl, ?_⟩
    intro huncut
    cases huncut

theorem flow_monotone_sample : ∃ built graph found found', sample.graph = .ok built ∧
    [.emptyJumps].foldlM Graph.apply built = .ok graph ∧ sample.SingleRoles ∧
    sample.flow graph sample.names 3 = .ok found ∧
    sample.flow graph sample.names 12 = .ok found' ∧
    found.truncated = true ∧ found.reads ≠ [] ∧ found'.truncated = false ∧
    found'.reads ≠ found.reads ∧
    ∀ site assignments, (site, assignments) ∈ found.reads →
      ∃ assignments', (site, assignments') ∈ found'.reads ∧ assignments ⊆ assignments' := by
  have hrun : (do
      let built ← sample.graph
      let graph ← [Pass.emptyJumps].foldlM Graph.apply built
      let found ← sample.flow graph sample.names 3
      let found' ← sample.flow graph sample.names 12
      return (found.truncated, found.reads.isEmpty, found'.truncated,
        found'.reads == found.reads)) = .ok (true, false, false, false) := by
    cbv
  obtain ⟨built, hbuilt, hrun⟩ := exists_of_bind_eq_ok hrun
  obtain ⟨graph, hgraph, hrun⟩ := exists_of_bind_eq_ok hrun
  obtain ⟨found, hfound, hrun⟩ := exists_of_bind_eq_ok hrun
  obtain ⟨found', hfound', hrun⟩ := exists_of_bind_eq_ok hrun
  have hroles : sample.SingleRoles := by decide
  have hends : found.truncated = true ∧ found.reads.isEmpty = false ∧ found'.truncated = false ∧
      (found'.reads == found.reads) = false := by
    simpa [pure, Except.pure] using hrun
  refine ⟨built, graph, found, found', hbuilt, hgraph, hroles, hfound, hfound', hends.1, ?_,
    hends.2.2.1, ?_, (flow_monotone hbuilt hgraph hroles (by decide) hfound hfound').2.1⟩
  · simpa using hends.2.1
  · simpa using hends.2.2.2

end Program

end DefUse
