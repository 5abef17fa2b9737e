/-
# `Proofs.Dependency.Path` — which assignments reach a read, along paths

What the flow analysis is to compute, said without any iteration.  A path starts at
the entry and follows edges; on its way the actions of its blocks are done.  An
assignment *reaches* a read if on some path it is the last write to the read's
variable before the read is done (`Graph.Reaches`).

Which edges count is a parameter: all of them, or only those that a run can take.
-/
import DefUse.Proofs.Dependency.Passage
import DefUse.Proofs.Graph.WellFormed

namespace DefUse

open DefUse.Tree

namespace Graph

/-- The edges but for the false side of a branch that is always taken. -/
def LiveEdge (graph : Graph) (id next : BlockId) : Prop :=
  match graph.exitOf id with
  | .branch condition onTrue onFalse =>
    next = onTrue ∨ next = onFalse ∧ condition.isAlwaysTrue = false
  | exit => next ∈ exit.successors

/-- What is done in some blocks, one after the other. -/
def actionsAlong (graph : Graph) (passed : List BlockId) : List Action :=
  passed.flatMap graph.actionsAt

/-- The assignment may define the name where a block is entered. -/
def Arrives (graph : Graph) (edge : BlockId → BlockId → Prop) (names : Names) (id : BlockId)
    (name : String) (assignment : Assignment) : Prop :=
  ∃ passed, graph.Path edge passed id ∧
    LastWrite names name assignment (graph.actionsAlong passed)

/-- On some path the assignment is made to the variable that is read, and no other write to it
is made before the read. -/
def Reaches (graph : Graph) (edge : BlockId → BlockId → Prop) (names : Names)
    (assignment : Assignment) (read : Site) : Prop :=
  ∃ name passed id before after, names.get? read = some name ∧ graph.Path edge passed id ∧
    graph.actionsAt id = before ++ .read read :: after ∧
    LastWrite names name assignment (graph.actionsAlong passed ++ before)

/-- The map lists the reads on the paths, in document order, and for each of them the assignments
that reach it, in document order. -/
structure ReachingMap (graph : Graph) (edge : BlockId → BlockId → Prop) (names : Names)
    (map : ReadMap) : Prop where
  ordered : map.Ordered
  arranged : ∀ site assignments, (site, assignments) ∈ map → Assignment.Arranged assignments
  reads : ∀ site, site ∈ map.map Prod.fst ↔
    ∃ passed id, graph.Path edge passed id ∧ .read site ∈ graph.actionsAt id
  reaches : ∀ site assignments, (site, assignments) ∈ map → ∀ assignment,
    assignment ∈ assignments ↔ graph.Reaches edge names assignment site

variable {graph : Graph} {names : Names} {name : String} {assignment : Assignment}

theorem actionsAlong_concat (passed : List BlockId) (id : BlockId) :
    graph.actionsAlong (passed ++ [id]) = graph.actionsAlong passed ++ graph.actionsAt id := by
  rw [actionsAlong, List.flatMap_append, List.flatMap_singleton]
  rfl

theorem edge_of_liveEdge {id next : BlockId} (h : graph.LiveEdge id next) : graph.Edge id next := by
  rw [LiveEdge] at h
  rw [Edge, successors]
  split at h
  · rename_i condition onTrue onFalse hexit
    rw [hexit]
    rcases h with rfl | ⟨rfl, -⟩
    · exact List.mem_cons_self
    · exact List.mem_cons_of_mem _ List.mem_cons_self
  · exact h

/-- Paths lead to the reachable blocks. -/
theorem reachable_iff_path (hwired : graph.Wired) {id : BlockId} :
    graph.Reachable id ↔ ∃ passed, graph.Path graph.Edge passed id :=
  hwired.closed.reachable_iff_path

/-- What is done on the way to a block is done in blocks that are passed. -/
theorem mem_actionsAlong {edge : BlockId → BlockId → Prop} {passed : List BlockId} {id : BlockId}
    (hpath : graph.Path edge passed id) {action : Action} (h : action ∈ graph.actionsAlong passed) :
    ∃ passed' id', graph.Path edge passed' id' ∧ action ∈ graph.actionsAt id' := by
  induction hpath with
  | start => cases h
  | @step passed id next hpath _ ih =>
      rw [actionsAlong_concat] at h
      rcases List.mem_append.mp h with h | h
      · exact ih h
      · exact ⟨passed, id, hpath, h⟩

/-- A path on some of the edges is a path. -/
theorem Path.mono {edge larger : BlockId → BlockId → Prop}
    (hle : ∀ id next, edge id next → larger id next) {passed : List BlockId} {id : BlockId}
    (hpath : graph.Path edge passed id) : graph.Path larger passed id := by
  induction hpath with
  | start => exact .start
  | step _ hnext ih => exact ih.step (hle _ _ hnext)

/-- What reaches a read is written on a path. -/
theorem Reaches.written {edge : BlockId → BlockId → Prop} {read : Site}
    (h : graph.Reaches edge names assignment read) :
    ∃ passed id, graph.Path edge passed id ∧ .write assignment ∈ graph.actionsAt id := by
  obtain ⟨name, passed, id, before, after, -, hpath, hactions, -, early, late, hsplit, -⟩ := h
  have hwrite : Action.write assignment ∈ graph.actionsAlong passed ++ before := by
    rw [hsplit]
    exact List.mem_append_right _ List.mem_cons_self
  rcases List.mem_append.mp hwrite with hwrite | hwrite
  · exact mem_actionsAlong hpath hwrite
  · refine ⟨passed, id, hpath, ?_⟩
    rw [hactions]
    exact List.mem_append_left _ hwrite

end Graph

/-- The last write in two sequences: in the second, or in the first and not in the second. -/
theorem lastWrite_append {names : Names} {name : String} {assignment : Assignment}
    {first second : List Action} : LastWrite names name assignment (first ++ second) ↔
      LastWrite names name assignment second ∨
        LastWrite names name assignment first ∧ Unwritten names name second := by
  have hnil : ∀ {actions : List Action}, LastWrite names name assignment actions ↔
      (name, assignment) ∈ Definitions.after names actions [] := by
    intro actions
    rw [Definitions.mem_after]
    simp
  rw [hnil, Definitions.after, List.foldl_append]
  show (name, assignment) ∈ Definitions.after names second (Definitions.after names first []) ↔ _
  rw [Definitions.mem_after, ← hnil]

/-- A site that is read once is read at one place. -/
theorem eq_of_read_split {site : Site} {before before' after after' : List Action}
    (hnodup : (readSites (before ++ .read site :: after)).Nodup)
    (heq : before ++ .read site :: after = before' ++ .read site :: after') : before = before' := by
  -- a second place would make the site be read twice
  have htwice : ∀ {first second rest : List Action},
      second = first ++ .read site :: rest → (readSites (.read site :: second)).Nodup → False := by
    intro first second rest heq hnodup
    have hcons : readSites (.read site :: second) = site :: readSites second := rfl
    rw [hcons] at hnodup
    refine (List.nodup_cons.mp hnodup).1 (mem_readSites.mpr ?_)
    rw [heq]
    exact List.mem_append_right _ List.mem_cons_self
  induction before generalizing before' with
  | nil =>
      cases before' with
      | nil => rfl
      | cons first rest =>
          rw [List.nil_append, List.cons_append, List.cons.injEq] at heq
          exact (htwice heq.2 hnodup).elim
  | cons first rest ih =>
      rw [List.cons_append] at hnodup heq
      have hrest : (readSites (rest ++ .read site :: after)).Nodup :=
        hnodup.sublist ((List.sublist_cons_self first _).filterMap _)
      cases before' with
      | nil =>
          rw [List.nil_append, List.cons.injEq] at heq
          rw [heq.1] at hnodup
          exact (htwice rfl hnodup).elim
      | cons first' rest' =>
          rw [List.cons_append, List.cons.injEq] at heq
          rw [heq.1, ih hrest heq.2]

end DefUse
