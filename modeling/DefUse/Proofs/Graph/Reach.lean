/-
# `Proofs.Graph.Reach` — the breadth-first order lists what is reachable

`Graph.order` is a queue algorithm.  Here stands the relation it decides: a block
is *reachable* if a chain of edges leads to it from the entry, each of them to a
block that exists.  The order lists exactly those blocks (`mem_order`), and none
of them twice (`nodup_order`).  If edges lead nowhere else, then these are the
blocks to which there is a path (`Closed.reachable_iff_path`).

Everything later speaks of `Reachable` and does not look at the queue again, but
for `Proofs.Graph.Distance`, which is about the order of the list.
-/
import DefUse.Graph.Basic

namespace DefUse.Graph

/-- The entry exists, and every edge leads to a block that exists. -/
structure Closed (graph : Graph) : Prop where
  entry : graph.entry < graph.blocks.size
  targets : ∀ id, ∀ next ∈ graph.successors id, next < graph.blocks.size

/-- The transition edges of the graph. -/
def Edge (graph : Graph) (id next : BlockId) : Prop :=
  next ∈ graph.successors id

/-- A path from the entry: the blocks passed, and the block it leads to. -/
inductive Path (graph : Graph) (edge : BlockId → BlockId → Prop) : List BlockId → BlockId → Prop
  | start : Path graph edge [] graph.entry
  | step {passed : List BlockId} {id next : BlockId} :
      Path graph edge passed id → edge id next → Path graph edge (passed ++ [id]) next

/-- A chain of edges leads from the entry to the block. -/
inductive Reachable (graph : Graph) : BlockId → Prop
  | entry : graph.entry < graph.blocks.size → Reachable graph graph.entry
  | step {id next : BlockId} : Reachable graph id → next ∈ graph.successors id →
      next < graph.blocks.size → Reachable graph next

theorem Reachable.lt {graph : Graph} {id : BlockId} (h : graph.Reachable id) :
    id < graph.blocks.size := by
  cases h with
  | entry h => exact h
  | step _ _ h => exact h

/-- Paths lead to the reachable blocks. -/
theorem Closed.reachable_iff_path {graph : Graph} (hclosed : graph.Closed) {id : BlockId} :
    graph.Reachable id ↔ ∃ passed, graph.Path graph.Edge passed id := by
  constructor
  · intro h
    induction h with
    | entry _ => exact ⟨[], .start⟩
    | step _ hnext _ ih =>
        obtain ⟨passed, hpath⟩ := ih
        exact ⟨_, hpath.step hnext⟩
  · rintro ⟨passed, hpath⟩
    induction hpath with
    | start => exact .entry hclosed.entry
    | step _ hnext ih => exact .step ih hnext (hclosed.targets _ _ hnext)

/-! ## The queue, seen from outside

Three facts about `enumerate`, each by its own recursion: it lists nothing that
was not reachable, it lists nothing twice, and what it lists is closed under
edges.  For the last one, the successors of a listed block are either listed or
still in the queue. -/

theorem enumerate_sound (graph : Graph) (queue order : List BlockId)
    (hqueue : ∀ id ∈ queue, id < graph.blocks.size → graph.Reachable id)
    (horder : ∀ id ∈ order, graph.Reachable id) :
    ∀ id ∈ graph.enumerate queue order, graph.Reachable id := by
  fun_induction enumerate graph queue order with
  | case1 => exact horder
  | case2 order id rest _ ih =>
      exact ih (fun x hx => hqueue x (List.mem_cons_of_mem _ hx)) horder
  | case3 order id rest _ hid listed next ih =>
      have hreach : graph.Reachable id := hqueue id List.mem_cons_self hid
      refine ih ?_ ?_
      · intro x hx hlt
        rcases List.mem_append.mp hx with hx | hx
        · exact hqueue x (List.mem_cons_of_mem _ hx) hlt
        · exact .step hreach (List.mem_filter.mp hx).1 hlt
      · intro x hx
        rcases List.mem_append.mp hx with hx | hx
        · exact horder x hx
        · exact List.mem_singleton.mp hx ▸ hreach
  | case4 order id rest _ _ ih =>
      exact ih (fun x hx => hqueue x (List.mem_cons_of_mem _ hx)) horder

theorem enumerate_nodup (graph : Graph) (queue order : List BlockId) (horder : order.Nodup) :
    (graph.enumerate queue order).Nodup := by
  fun_induction enumerate graph queue order with
  | case1 => exact horder
  | case2 _ _ _ _ ih => exact ih horder
  | case3 order id rest hnew _ listed next ih =>
      refine ih (List.nodup_append.mpr ⟨horder, by simp, ?_⟩)
      intro a ha b hb hab
      have hmem : id ∈ order := by rwa [← List.mem_singleton.mp hb, ← hab]
      exact hnew (List.contains_iff_mem.mpr hmem)
  | case4 _ _ _ _ _ ih => exact ih horder

/-- What is in the queue or listed ends up listed. -/
theorem enumerate_subset (graph : Graph) (queue order : List BlockId) :
    (∀ id ∈ order, id ∈ graph.enumerate queue order) ∧
    (∀ id ∈ queue, id < graph.blocks.size → id ∈ graph.enumerate queue order) := by
  fun_induction enumerate graph queue order with
  | case1 => exact ⟨fun _ h => h, fun _ h => absurd h List.not_mem_nil⟩
  | case2 order id rest hold ih =>
      refine ⟨ih.1, ?_⟩
      intro x hx hlt
      rcases List.mem_cons.mp hx with rfl | hx
      · exact ih.1 x (List.contains_iff_mem.mp hold)
      · exact ih.2 x hx hlt
  | case3 order id rest _ _ listed next ih =>
      refine ⟨fun x hx => ih.1 x (List.mem_append_left _ hx), ?_⟩
      intro x hx hlt
      rcases List.mem_cons.mp hx with rfl | hx
      · exact ih.1 x (List.mem_append_right _ (List.mem_singleton.mpr rfl))
      · exact ih.2 x (List.mem_append_left _ hx) hlt
  | case4 order id rest _ hid ih =>
      refine ⟨ih.1, ?_⟩
      intro x hx hlt
      rcases List.mem_cons.mp hx with rfl | hx
      · exact absurd hlt hid
      · exact ih.2 x hx hlt

theorem enumerate_closed (graph : Graph) (queue order : List BlockId)
    (hinv : ∀ id ∈ order, ∀ next ∈ graph.successors id, next < graph.blocks.size →
      next ∈ order ∨ next ∈ queue) :
    ∀ id ∈ graph.enumerate queue order, ∀ next ∈ graph.successors id,
      next < graph.blocks.size → next ∈ graph.enumerate queue order := by
  fun_induction enumerate graph queue order with
  | case1 =>
      intro id hid next hnext hlt
      exact (hinv id hid next hnext hlt).resolve_right List.not_mem_nil
  | case2 order id rest hold ih =>
      refine ih ?_
      intro x hx next hnext hlt
      rcases hinv x hx next hnext hlt with h | h
      · exact .inl h
      · rcases List.mem_cons.mp h with rfl | h
        · exact .inl (List.contains_iff_mem.mp hold)
        · exact .inr h
  | case3 order id rest _ _ listed next ih =>
      refine ih ?_
      intro x hx y hy hlt
      by_cases hlisted : y ∈ listed
      · exact .inl hlisted
      · refine .inr (List.mem_append.mpr ?_)
        rcases List.mem_append.mp hx with hx | hx
        · rcases hinv x hx y hy hlt with h | h
          · exact absurd (List.mem_append_left _ h) hlisted
          · rcases List.mem_cons.mp h with rfl | h
            · exact absurd (List.mem_append_right _ (List.mem_singleton.mpr rfl)) hlisted
            · exact .inl h
        · rw [List.mem_singleton.mp hx] at hy
          exact .inr (List.mem_filter.mpr ⟨hy, by simpa using hlisted⟩)
  | case4 order id rest _ hid ih =>
      refine ih ?_
      intro x hx next hnext hlt
      rcases hinv x hx next hnext hlt with h | h
      · exact .inl h
      · rcases List.mem_cons.mp h with rfl | h
        · exact absurd hlt hid
        · exact .inr h

/-! ## The order -/

theorem nodup_order (graph : Graph) : graph.order.Nodup :=
  enumerate_nodup graph _ _ List.nodup_nil

/-- The order lists the reachable blocks. -/
theorem mem_order {graph : Graph} {id : BlockId} : id ∈ graph.order ↔ graph.Reachable id := by
  constructor
  · refine enumerate_sound graph _ _ ?_ (fun _ h => absurd h List.not_mem_nil) id
    intro x hx hlt
    rw [List.mem_singleton] at hx
    subst hx
    exact .entry hlt
  · intro h
    induction h with
    | entry hlt =>
        exact (enumerate_subset graph [graph.entry] []).2 _ (List.mem_singleton.mpr rfl) hlt
    | step _ hnext hlt ih =>
        refine enumerate_closed graph _ _ ?_ _ ih _ hnext hlt
        exact fun _ h => absurd h List.not_mem_nil

/-- Reachability looks at the entry, the number of blocks and the edges only. -/
theorem Reachable.mono {graph other : Graph} (hentry : graph.entry = other.entry)
    (hsize : graph.blocks.size ≤ other.blocks.size)
    (hedge : ∀ id, graph.Reachable id → ∀ next ∈ graph.successors id,
      next ∈ other.successors id) {id : BlockId} (h : graph.Reachable id) :
    other.Reachable id := by
  induction h with
  | entry hlt =>
      rw [hentry] at hlt ⊢
      exact .entry (Nat.lt_of_lt_of_le hlt hsize)
  | step hid hnext hlt ih =>
      exact .step ih (hedge _ hid _ hnext) (Nat.lt_of_lt_of_le hlt hsize)

end DefUse.Graph
