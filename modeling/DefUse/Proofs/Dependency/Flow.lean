/-
# `Proofs.Dependency.Flow` — the iteration computes what paths say

The iteration keeps, for every block visited, the definitions that have reached it,
and a queue of blocks to look at again.  Its invariant (`Flow.Invariant`):

* nothing is there without a path: what is recorded, and what is in the queue, arrives
  on some path;
* nothing is forgotten: the entry is visited or in the queue, and what a visited block
  hands on is known to its successors or waits for them in the queue;
* the notes are those of the last visit of each block.

The last one needs every read to belong to one block and to one place in it
(`FlowProblem.Proper`), since a note replaces another one of the same read.

When the queue is empty, what is recorded is what arrives, by induction over the path
(`Flow.Invariant.known_of_path`), and the notes are right (`Flow.Invariant.mem_iff_reaches`).
-/
import DefUse.Proofs.Dependency.Path

namespace DefUse

open DefUse.Tree

/-- Every read of the reachable blocks is made at one place. -/
structure Graph.ReadsApart (graph : Graph) : Prop where
  /-- A block reads a site once. -/
  once : ∀ id, graph.Reachable id → (readSites (graph.actionsAt id)).Nodup
  /-- A site is read by one block. -/
  apart : ∀ id other site, graph.Reachable id → graph.Reachable other →
    .read site ∈ graph.actionsAt id → .read site ∈ graph.actionsAt other → id = other

/-- What the iteration relies on. -/
structure FlowProblem.Proper (problem : FlowProblem) : Prop where
  wired : problem.graph.Wired
  /-- The effects of every reachable block are there. -/
  effects : ∀ id, problem.graph.Reachable id → ∃ effects,
    problem.effects.lookup id = some effects ∧ effects.actions = problem.graph.actionsAt id
  reads : problem.graph.ReadsApart

namespace Flow

/-- The blocks waiting, with what comes in. -/
abbrev Queue := List (BlockId × Definitions)

/-! ## Runs -/

/-- What skipping and visiting keep, a run that is not cut short keeps until its queue is
empty. -/
theorem run_keeps {problem : FlowProblem} {maxVisits : Nat} {P : Queue → Flow → Prop}
    (skip : ∀ id incoming rest flow, P ((id, incoming) :: rest) flow →
      flow.covers id incoming = true → P rest flow)
    (visit : ∀ id incoming rest flow, P ((id, incoming) :: rest) flow →
      P (rest ++ (problem.graph.successors id).map fun next =>
          (next, (flow.passage problem id incoming).definitions))
        (flow.visit problem id incoming))
    (queue : Queue) (flow : Flow) (h : P queue flow)
    (hend : (run problem maxVisits queue flow).truncated = false) :
    P [] (run problem maxVisits queue flow) := by
  fun_induction run problem maxVisits queue flow with
  | case1 flow => exact h
  | case2 flow id incoming rest hcovers ih => exact ih (skip _ _ _ _ h hcovers) hend
  | case3 flow id incoming rest _ _ leaving next ih => exact ih (visit _ _ _ _ h) hend
  | case4 => cases hend

/-- The notes of a run, also of one that is cut short, are those of a state that skipping and
visiting led to. -/
theorem exists_reads_run (problem : FlowProblem) (maxVisits : Nat) {P : Queue → Flow → Prop}
    (skip : ∀ id incoming rest flow, P ((id, incoming) :: rest) flow →
      flow.covers id incoming = true → P rest flow)
    (visit : ∀ id incoming rest flow, P ((id, incoming) :: rest) flow →
      P (rest ++ (problem.graph.successors id).map fun next =>
          (next, (flow.passage problem id incoming).definitions))
        (flow.visit problem id incoming))
    (queue : Queue) (flow : Flow) (h : P queue flow) :
    ∃ rest last, P rest last ∧ (run problem maxVisits queue flow).reads = last.reads := by
  fun_induction run problem maxVisits queue flow with
  | case1 flow => exact ⟨[], flow, h, rfl⟩
  | case2 flow id incoming rest hcovers ih => exact ih (skip _ _ _ _ h hcovers)
  | case3 flow id incoming rest _ _ leaving next ih => exact ih (visit _ _ _ _ h)
  | case4 flow => exact ⟨_, flow, h, rfl⟩

/-! ## Records -/

/-- A visit records what has arrived at the block, and changes no other record. -/
theorem lookup_visit (problem : FlowProblem) (id : BlockId) (incoming : Definitions)
    (flow : Flow) (other : BlockId) :
    (flow.visit problem id incoming).recorded.lookup other =
      if other = id then some (flow.arriving id incoming) else flow.recorded.lookup other := by
  rw [visit, List.lookup_cons]
  by_cases h : other = id
  · rw [if_pos h, h]
    simp
  · have hne : (other == id) = false := by simpa using h
    rw [if_neg h, hne]
    exact Names.lookup_filter_ne h _

theorem mem_arriving {flow : Flow} {id : BlockId} {incoming : Definitions}
    {definition : String × Assignment} : definition ∈ flow.arriving id incoming ↔
      (∃ known, flow.recorded.lookup id = some known ∧ definition ∈ known) ∨
        definition ∈ incoming := by
  rw [arriving, Definitions.mem_union]
  cases flow.recorded.lookup id with
  | none => simp
  | some known => simp

theorem covers_eq_true {flow : Flow} {id : BlockId} {incoming : Definitions}
    (h : flow.covers id incoming = true) :
    ∃ known, flow.recorded.lookup id = some known ∧ incoming ⊆ known := by
  rw [covers] at h
  split at h
  · rename_i known hknown
    exact ⟨known, hknown, fun definition => Definitions.covers_iff.mp h definition⟩
  · cases h

/-- The way through a reachable block is that through its actions. -/
theorem passage_eq {problem : FlowProblem} (hproper : problem.Proper) {id : BlockId}
    (hid : problem.graph.Reachable id) (incoming : Definitions) (flow : Flow) :
    flow.passage problem id incoming =
      (problem.graph.actionsAt id).foldl (Passage.act problem.program problem.names)
        ⟨flow.arriving id incoming, flow.reads, flow.events⟩ := by
  obtain ⟨effects, hlookup, hactions⟩ := hproper.effects id hid
  rw [passage, hlookup, ← hactions]
  exact Passage.through_eq _ _ _ _

theorem definitions_passage {problem : FlowProblem} (hproper : problem.Proper) {id : BlockId}
    (hid : problem.graph.Reachable id) (incoming : Definitions) (flow : Flow) :
    (flow.passage problem id incoming).definitions =
      Definitions.after problem.names (problem.graph.actionsAt id) (flow.arriving id incoming) := by
  rw [passage_eq hproper hid, Passage.definitions_foldl]

/-! ## The invariant -/

/-- A block was visited with all these definitions, or will be. -/
def Handled (queue : Queue) (flow : Flow) (id : BlockId) (definitions : Definitions) : Prop :=
  (∃ known, flow.recorded.lookup id = some known ∧ definitions ⊆ known) ∨
    ∃ incoming, (id, incoming) ∈ queue ∧ definitions ⊆ incoming

/-- What holds all the time. -/
structure Invariant (problem : FlowProblem) (queue : Queue) (flow : Flow) : Prop where
  /-- What is recorded arrives. -/
  recorded : ∀ id known, flow.recorded.lookup id = some known → problem.graph.Reachable id ∧
    ∀ name assignment, (name, assignment) ∈ known →
      problem.graph.Arrives problem.graph.Edge problem.names id name assignment
  /-- What is in the queue arrives. -/
  queued : ∀ id incoming, (id, incoming) ∈ queue → problem.graph.Reachable id ∧
    ∀ name assignment, (name, assignment) ∈ incoming →
      problem.graph.Arrives problem.graph.Edge problem.names id name assignment
  entry : Handled queue flow problem.graph.entry []
  /-- What a visited block hands on is handled. -/
  edges : ∀ id known, flow.recorded.lookup id = some known →
    ∀ next ∈ problem.graph.successors id, Handled queue flow next
      (Definitions.after problem.names (problem.graph.actionsAt id) known)
  ordered : flow.reads.Ordered
  /-- The notes are those of the visited blocks. -/
  noted : ∀ site assignments, (site, assignments) ∈ flow.reads ↔ ∃ id known before after,
    flow.recorded.lookup id = some known ∧
    problem.graph.actionsAt id = before ++ .read site :: after ∧
    assignments =
      (Definitions.after problem.names before known).reaching (Passage.nameOf problem.names site)

variable {problem : FlowProblem} {queue rest : Queue} {flow : Flow} {id : BlockId}
  {incoming : Definitions}

theorem invariant_start (hproper : problem.Proper) :
    Invariant problem [(problem.graph.entry, [])] start where
  recorded := fun _ _ h => nomatch h
  queued := by
    intro id incoming h
    cases List.mem_singleton.mp h
    exact ⟨.entry hproper.wired.entry, fun _ _ h => nomatch h⟩
  entry := .inr ⟨[], List.mem_singleton.mpr rfl, fun _ h => h⟩
  edges := fun _ _ h => nomatch h
  ordered := List.Pairwise.nil
  noted := by
    intro site assignments
    constructor
    · intro h
      cases h
    · rintro ⟨_, _, _, _, h, -⟩
      cases h

/-- What was already handled needs no visit. -/
theorem Invariant.skip (h : Invariant problem ((id, incoming) :: rest) flow)
    (hcovers : flow.covers id incoming = true) : Invariant problem rest flow := by
  obtain ⟨known, hknown, hsubset⟩ := covers_eq_true hcovers
  have hhandled : ∀ {other definitions}, Handled ((id, incoming) :: rest) flow other definitions →
      Handled rest flow other definitions := by
    rintro other definitions (hvisited | ⟨waiting, hmem, hle⟩)
    · exact .inl hvisited
    · rcases List.mem_cons.mp hmem with heq | hmem
      · cases heq
        exact .inl ⟨known, hknown, fun _ hmem => hsubset (hle hmem)⟩
      · exact .inr ⟨waiting, hmem, hle⟩
  exact {
    recorded := h.recorded
    queued := fun other waiting hmem => h.queued other waiting (List.mem_cons_of_mem _ hmem)
    entry := hhandled h.entry
    edges := fun other known hknown next hnext => hhandled (h.edges other known hknown next hnext)
    ordered := h.ordered
    noted := h.noted }

/-- What arrives at a block, changed by the block, arrives at its successors. -/
theorem arrives_next (hproper : problem.Proper) (hid : problem.graph.Reachable id)
    {definitions : Definitions} (hdefinitions : ∀ name assignment, (name, assignment) ∈ definitions →
      problem.graph.Arrives problem.graph.Edge problem.names id name assignment)
    {next : BlockId} (hnext : next ∈ problem.graph.successors id) {name : String}
    {assignment : Assignment} (h : (name, assignment) ∈
      Definitions.after problem.names (problem.graph.actionsAt id) definitions) :
    problem.graph.Arrives problem.graph.Edge problem.names next name assignment := by
  rcases Definitions.mem_after.mp h with hlast | ⟨hmem, hunwritten⟩
  · obtain ⟨passed, hpath⟩ := (Graph.reachable_iff_path hproper.wired).mp hid
    refine ⟨passed ++ [id], hpath.step hnext, ?_⟩
    rw [Graph.actionsAlong_concat, lastWrite_append]
    exact .inl hlast
  · obtain ⟨passed, hpath, hlast⟩ := hdefinitions name assignment hmem
    refine ⟨passed ++ [id], hpath.step hnext, ?_⟩
    rw [Graph.actionsAlong_concat, lastWrite_append]
    exact .inr ⟨hlast, hunwritten⟩

/-- All that comes to a block arrives on paths. -/
theorem Invariant.arriving (h : Invariant problem ((id, incoming) :: rest) flow) :
    problem.graph.Reachable id ∧ ∀ name assignment,
      (name, assignment) ∈ flow.arriving id incoming →
        problem.graph.Arrives problem.graph.Edge problem.names id name assignment := by
  obtain ⟨hid, hincoming⟩ := h.queued id incoming List.mem_cons_self
  refine ⟨hid, ?_⟩
  intro name assignment hmem
  rcases mem_arriving.mp hmem with ⟨known, hknown, hmem⟩ | hmem
  · exact (h.recorded id known hknown).2 name assignment hmem
  · exact hincoming name assignment hmem

/-- Records only grow, and the block that was taken from the queue has its record now. -/
theorem Handled.visit {other : BlockId} {definitions : Definitions} (more : Queue)
    (h : Handled ((id, incoming) :: rest) flow other definitions) :
    Handled (rest ++ more) (flow.visit problem id incoming) other definitions := by
  rcases h with ⟨known, hknown, hle⟩ | ⟨waiting, hmem, hle⟩
  · by_cases heq : other = id
    · refine .inl ⟨flow.arriving id incoming, ?_, ?_⟩
      · rw [lookup_visit, if_pos heq]
      · intro definition hmem
        exact mem_arriving.mpr (.inl ⟨known, heq ▸ hknown, hle hmem⟩)
    · refine .inl ⟨known, ?_, hle⟩
      rw [lookup_visit, if_neg heq, hknown]
  · rcases List.mem_cons.mp hmem with heq | hmem
    · cases heq
      refine .inl ⟨flow.arriving id incoming, ?_, ?_⟩
      · rw [lookup_visit, if_pos rfl]
      · intro definition hmem
        exact mem_arriving.mpr (.inr (hle hmem))
    · exact .inr ⟨waiting, List.mem_append_left _ hmem, hle⟩

/-- The notes after a visit: those of the block are new, and all others belong to other blocks. -/
theorem Invariant.noted_visit (hproper : problem.Proper)
    (h : Invariant problem ((id, incoming) :: rest) flow) (site : Site)
    (assignments : List Assignment) :
    (site, assignments) ∈ (flow.visit problem id incoming).reads ↔ ∃ other known before after,
      (flow.visit problem id incoming).recorded.lookup other = some known ∧
      problem.graph.actionsAt other = before ++ .read site :: after ∧
      assignments = (Definitions.after problem.names before known).reaching
        (Passage.nameOf problem.names site) := by
  obtain ⟨hid, -⟩ := h.arriving
  show (site, assignments) ∈ (flow.passage problem id incoming).reads ↔ _
  rw [passage_eq hproper hid, Passage.mem_reads_foldl _ (hproper.reads.once id hid) _ h.ordered]
  have hread : ∀ {other before after},
      problem.graph.actionsAt other = before ++ .read site :: after →
        .read site ∈ problem.graph.actionsAt other := by
    intro other before after hactions
    rw [hactions]
    exact List.mem_append_right _ List.mem_cons_self
  constructor
  · rintro (⟨before, after, hactions, hnote⟩ | ⟨hother, hold⟩)
    · refine ⟨id, flow.arriving id incoming, before, after, ?_, hactions, hnote⟩
      rw [lookup_visit, if_pos rfl]
    · obtain ⟨other, known, before, after, hknown, hactions, hnote⟩ :=
        (h.noted site assignments).mp hold
      refine ⟨other, known, before, after, ?_, hactions, hnote⟩
      rw [lookup_visit, if_neg ?_, hknown]
      rintro rfl
      exact hother (mem_readSites.mpr (hread hactions))
  · rintro ⟨other, known, before, after, hknown, hactions, hnote⟩
    rw [lookup_visit] at hknown
    split at hknown
    · rename_i heq
      subst heq
      cases hknown
      exact .inl ⟨before, after, hactions, hnote⟩
    · rename_i hne
      refine .inr ⟨?_, (h.noted site assignments).mpr
        ⟨other, known, before, after, hknown, hactions, hnote⟩⟩
      -- another block reads the site, so this one does not
      intro hmem
      exact hne (hproper.reads.apart other id site (h.recorded other known hknown).1 hid
        (hread hactions) (mem_readSites.mp hmem))

/-- A visit records what comes in and puts what goes out into the queue. -/
theorem Invariant.visit (hproper : problem.Proper)
    (h : Invariant problem ((id, incoming) :: rest) flow) :
    Invariant problem (rest ++ (problem.graph.successors id).map fun next =>
        (next, (flow.passage problem id incoming).definitions))
      (flow.visit problem id incoming) where
  recorded := by
    intro other known hknown
    rw [lookup_visit] at hknown
    split at hknown
    · rename_i heq
      subst heq
      cases hknown
      exact h.arriving
    · exact h.recorded other known hknown
  queued := by
    intro other waiting hmem
    obtain ⟨hid, harriving⟩ := h.arriving
    rcases List.mem_append.mp hmem with hmem | hmem
    · exact h.queued other waiting (List.mem_cons_of_mem _ hmem)
    · obtain ⟨next, hnext, heq⟩ := List.mem_map.mp hmem
      cases heq
      refine ⟨.step hid hnext (hproper.wired.targets _ _ hnext), ?_⟩
      intro name assignment hmem
      rw [definitions_passage hproper hid] at hmem
      exact arrives_next hproper hid harriving hnext hmem
  entry := h.entry.visit _
  edges := by
    intro other known hknown next hnext
    rw [lookup_visit] at hknown
    split at hknown
    · rename_i heq
      subst heq
      cases hknown
      rw [← definitions_passage hproper h.arriving.1]
      exact .inr ⟨_, List.mem_append_right _ (List.mem_map.mpr ⟨next, hnext, rfl⟩), fun _ h => h⟩
    · exact (h.edges other known hknown next hnext).visit _
  ordered := by
    show (flow.passage problem id incoming).reads.Ordered
    rw [passage_eq hproper h.arriving.1]
    exact Passage.ordered_foldl _ _ h.ordered
  noted := h.noted_visit hproper

/-! ## When the queue is empty -/

/-- What arrives on a path is recorded. -/
theorem Invariant.known_of_path (h : Invariant problem [] flow) {passed : List BlockId}
    (hpath : problem.graph.Path problem.graph.Edge passed id) :
    ∃ known, flow.recorded.lookup id = some known ∧ ∀ name assignment,
      LastWrite problem.names name assignment (problem.graph.actionsAlong passed) →
      (name, assignment) ∈ known := by
  have hdone : ∀ {other definitions}, Handled [] flow other definitions →
      ∃ known, flow.recorded.lookup other = some known ∧ definitions ⊆ known := by
    rintro other definitions (hvisited | ⟨waiting, hmem, -⟩)
    · exact hvisited
    · cases hmem
  induction hpath with
  | start =>
      obtain ⟨known, hknown, -⟩ := hdone h.entry
      exact ⟨known, hknown, fun name assignment hlast => absurd hlast not_lastWrite_nil⟩
  | @step passed id next _ hnext ih =>
      obtain ⟨known, hknown, hmem⟩ := ih
      obtain ⟨known', hknown', hle⟩ := hdone (h.edges id known hknown next hnext)
      refine ⟨known', hknown', fun name assignment hlast => hle (Definitions.mem_after.mpr ?_)⟩
      rw [Graph.actionsAlong_concat, lastWrite_append] at hlast
      rcases hlast with hlast | ⟨hlast, hunwritten⟩
      · exact .inl hlast
      · exact .inr ⟨hmem name assignment hlast, hunwritten⟩

/-- The reads that are noted are those on the paths. -/
theorem Invariant.mem_reads (hproper : problem.Proper) (h : Invariant problem [] flow)
    (site : Site) : site ∈ flow.reads.map Prod.fst ↔
      ∃ passed id, problem.graph.Path problem.graph.Edge passed id ∧
        .read site ∈ problem.graph.actionsAt id := by
  constructor
  · intro hmem
    obtain ⟨⟨site, assignments⟩, hnote, rfl⟩ := List.mem_map.mp hmem
    obtain ⟨id, known, before, after, hknown, hactions, -⟩ := (h.noted site assignments).mp hnote
    obtain ⟨passed, hpath⟩ :=
      (Graph.reachable_iff_path hproper.wired).mp (h.recorded id known hknown).1
    refine ⟨passed, id, hpath, ?_⟩
    rw [hactions]
    exact List.mem_append_right _ List.mem_cons_self
  · rintro ⟨passed, id, hpath, hread⟩
    obtain ⟨known, hknown, -⟩ := h.known_of_path hpath
    obtain ⟨before, after, hactions⟩ := List.append_of_mem hread
    exact List.mem_map.mpr ⟨_, (h.noted site _).mpr
      ⟨id, known, before, after, hknown, hactions, rfl⟩, rfl⟩

/-- The assignments noted of a read are those that reach it. -/
theorem Invariant.mem_iff_reaches (hproper : problem.Proper)
    (hnames : ∀ site, problem.names.get? site ≠ some unknownName)
    (h : Invariant problem [] flow) {site : Site} {assignments : List Assignment}
    (hnote : (site, assignments) ∈ flow.reads) (assignment : Assignment) :
    assignment ∈ assignments ↔
      problem.graph.Reaches problem.graph.Edge problem.names assignment site := by
  obtain ⟨id, known, before, after, hknown, hactions, rfl⟩ := (h.noted site assignments).mp hnote
  obtain ⟨hid, harrives⟩ := h.recorded id known hknown
  have hread : .read site ∈ problem.graph.actionsAt id := by
    rw [hactions]
    exact List.mem_append_right _ List.mem_cons_self
  rw [Definitions.mem_reaching, Definitions.mem_after]
  constructor
  · intro hmem
    -- some path leads to the block on which the assignment is the last write
    have hpath : ∃ passed, problem.graph.Path problem.graph.Edge passed id ∧
        LastWrite problem.names (Passage.nameOf problem.names site) assignment
          (problem.graph.actionsAlong passed ++ before) := by
      rcases hmem with hlast | ⟨hmem, hunwritten⟩
      · obtain ⟨passed, hpath⟩ := (Graph.reachable_iff_path hproper.wired).mp hid
        exact ⟨passed, hpath, lastWrite_append.mpr (.inl hlast)⟩
      · obtain ⟨passed, hpath, hlast⟩ := harrives _ _ hmem
        exact ⟨passed, hpath, lastWrite_append.mpr (.inr ⟨hlast, hunwritten⟩)⟩
    obtain ⟨passed, hpath, hlast⟩ := hpath
    cases hname : problem.names.get? site with
    | none =>
        rw [Passage.nameOf, hname] at hlast
        exact absurd hlast.1 (hnames _)
    | some name =>
        rw [Passage.nameOf, hname] at hlast
        exact ⟨name, passed, id, before, after, hname, hpath, hactions, hlast⟩
  · rintro ⟨name, passed, other, before', after', hname, hpath, hactions', hlast⟩
    have hother : problem.graph.Reachable other :=
      (Graph.reachable_iff_path hproper.wired).mpr ⟨passed, hpath⟩
    have heq : id = other := by
      refine hproper.reads.apart id other site hid hother hread ?_
      rw [hactions']
      exact List.mem_append_right _ List.mem_cons_self
    subst heq
    have hsplit : before = before' :=
      eq_of_read_split (hactions ▸ hproper.reads.once id hid) (hactions.symm.trans hactions')
    subst hsplit
    obtain ⟨known', hknown', hmem⟩ := h.known_of_path hpath
    cases hknown.symm.trans hknown'
    rw [Passage.nameOf, hname]
    rcases lastWrite_append.mp hlast with hlast | ⟨hlast, hunwritten⟩
    · exact .inl hlast
    · exact .inr ⟨hmem _ _ hlast, hunwritten⟩

end Flow

/-! ## The whole analysis -/

/-- The effects found for a reachable block are its own. -/
theorem Graph.lookup_effects {graph : Graph} (hwired : graph.Wired)
    {effects : List (BlockId × BlockEffects)} (h : graph.effects = .ok effects) {id : BlockId}
    (hid : graph.Reachable id) : ∃ found, effects.lookup id = some found ∧
      found.actions = graph.actionsAt id := by
  obtain ⟨block, hblock⟩ := block?_of_lt hid.lt
  have hlookup : ∀ (blocks : List Block) (effects : List (BlockId × BlockEffects)),
      (∀ other ∈ blocks, graph.block? other.id = some other) → block ∈ blocks →
      (blocks.mapM fun block => do
        let effects ← block.effects
        return (block.id, effects)) = (.ok effects : Except AnalysisError _) →
      ∃ found, effects.lookup id = some found ∧ block.effects = .ok found := by
    intro blocks
    induction blocks with
    | nil => exact fun _ _ hmem => nomatch hmem
    | cons first rest ih =>
        intro effects hblocks hmem h
        rw [List.mapM_cons] at h
        obtain ⟨entry, hentry, h⟩ := exists_of_bind_eq_ok h
        obtain ⟨found, hfound, hpair⟩ := exists_of_bind_eq_ok hentry
        cases hpair
        obtain ⟨others, hothers, h⟩ := exists_of_bind_eq_ok h
        cases h
        rw [List.lookup_cons]
        by_cases heq : id = first.id
        · -- a block is known by its index
          have hsame : first = block := by
            have hfirst := hblocks first List.mem_cons_self
            rw [← heq, hblock] at hfirst
            exact (Option.some.inj hfirst).symm
          subst hsame
          refine ⟨found, ?_, hfound⟩
          rw [heq]
          simp
        · have hne : (id == first.id) = false := by simpa using heq
          rw [hne]
          refine ih others (fun other hother => hblocks other (List.mem_cons_of_mem _ hother)) ?_
            hothers
          rcases List.mem_cons.mp hmem with rfl | hmem
          · exact absurd (hwired.ids id block hblock).symm heq
          · exact hmem
  obtain ⟨found, hfound, hok⟩ := hlookup graph.reachable effects (by
      intro other hother
      obtain ⟨key, -, hkey⟩ := List.mem_filterMap.mp hother
      rw [hwired.ids key other hkey]
      exact hkey)
    (List.mem_filterMap.mpr ⟨id, mem_order.mpr hid, hblock⟩) h
  refine ⟨found, hfound, ?_⟩
  rw [Block.actions_of_effects hok, actionsAt_of_code? (code?_of_block? hblock)]

/-- The dependencies that are found along a graph are those of its paths. -/
theorem Program.flow_spec {program : Program} {graph : Graph} {names : Names} {maxVisits : Nat}
    {found : Dependencies} (hwired : graph.Wired) (hreads : graph.ReadsApart)
    (hnames : ∀ site, names.get? site ≠ some unknownName)
    (h : program.flow graph names maxVisits = .ok found) (hend : found.truncated = false) :
    graph.ReachingMap graph.Edge names found.reads := by
  obtain ⟨effects, heffects, h⟩ := exists_of_bind_eq_ok h
  cases h
  have hproper : FlowProblem.Proper ⟨program, graph, names, effects⟩ :=
    ⟨hwired, fun id hid => Graph.lookup_effects hwired heffects hid, hreads⟩
  have hinvariant : Flow.Invariant ⟨program, graph, names, effects⟩ [] _ :=
    Flow.run_keeps (fun _ _ _ _ h hcovers => h.skip hcovers) (fun _ _ _ _ h => h.visit hproper) _ _
      (Flow.invariant_start hproper) hend
  refine ⟨hinvariant.ordered, ?_, hinvariant.mem_reads hproper,
    fun _ _ hnote => hinvariant.mem_iff_reaches hproper hnames hnote⟩
  intro site assignments hnote
  obtain ⟨-, -, -, -, -, -, rfl⟩ := (hinvariant.noted site assignments).mp hnote
  exact Assignment.arranged_arrange _

end DefUse
