/-
# `Proofs.Graph.Distance` — the breadth-first order goes by distance

The *distance* of a block is the length of a shortest path to it from the entry.
`Graph.order` lists the blocks that paths lead to, the entry first, and none before
one that is nearer (`order_breadthFirst`).

The queue does not look as if it kept them in that order.  A block is put into it
once for each edge that leads to it from a listed block, so it may stand there
several times, and for longer than it is wanted.  What the queue does keep is a
*frontier*: it falls into two parts, the blocks at the end of a path of some length
and those at the end of a path that is one longer, and a block with a shorter path
is listed already (`Frontier`).  So a block that is taken from the queue and is not
listed has exactly that distance (`Frontier.distance_eq`), and what is listed before
it is no further away.
-/
import Mathlib.Order.Lattice.Nat
import DefUse.Proofs.Graph.Code

namespace DefUse.Graph

/-- A path of this length leads to the block. -/
def Leads (graph : Graph) (length : Nat) (id : BlockId) : Prop :=
  ∃ passed, graph.Path graph.Edge passed id ∧ passed.length = length

/-- The length of a shortest path to the block. -/
noncomputable def distance (graph : Graph) (id : BlockId) : Nat :=
  sInf {length | graph.Leads length id}

variable {graph : Graph} {rounds level : Nat} {id next : BlockId}
  {queue near far rest order last : List BlockId}

/-! ## Paths and their lengths -/

theorem leads_entry (graph : Graph) : graph.Leads 0 graph.entry :=
  ⟨[], .start, rfl⟩

theorem Leads.step {length : Nat} (h : graph.Leads length id) (hnext : next ∈ graph.successors id) :
    graph.Leads (length + 1) next := by
  obtain ⟨passed, hpath, hlength⟩ := h
  exact ⟨passed ++ [id], hpath.step hnext, by simp [hlength]⟩

theorem Leads.eq_entry (h : graph.Leads 0 id) : id = graph.entry := by
  obtain ⟨passed, hpath, hlength⟩ := h
  cases hpath with
  | start => rfl
  | step _ _ => simp at hlength

theorem Leads.exists_step {length : Nat} (h : graph.Leads (length + 1) id) :
    ∃ before, graph.Leads length before ∧ id ∈ graph.successors before := by
  obtain ⟨passed, hpath, hlength⟩ := h
  cases hpath with
  | start => simp at hlength
  | @step passed before _ hpath hedge =>
      exact ⟨before, ⟨passed, hpath, by simpa using hlength⟩, hedge⟩

theorem Leads.lt {length : Nat} (hclosed : graph.Closed) (h : graph.Leads length id) :
    id < graph.blocks.size := by
  obtain ⟨passed, hpath, -⟩ := h
  exact (hclosed.reachable_iff_path.mpr ⟨passed, hpath⟩).lt

/-- No path is shorter than the distance. -/
theorem Leads.distance_le {length : Nat} (h : graph.Leads length id) :
    graph.distance id ≤ length :=
  Nat.sInf_le h

/-- A block that a path leads to has a path as long as its distance. -/
theorem Leads.at_distance {length : Nat} (h : graph.Leads length id) :
    graph.Leads (graph.distance id) id :=
  Nat.sInf_mem (s := {length | graph.Leads length id}) ⟨length, h⟩

/-! ## The loop -/

/-- A run of the loop, with the number of rounds it takes: the queue, what is listed at the
beginning, and what is listed when the queue is empty. -/
inductive Lists (graph : Graph) : Nat → List BlockId → List BlockId → List BlockId → Prop
  | done {order : List BlockId} : Lists graph 0 [] order order
  | skip {rounds : Nat} {id : BlockId} {rest order last : List BlockId} : id ∈ order →
      Lists graph rounds rest order last → Lists graph (rounds + 1) (id :: rest) order last
  | list {rounds : Nat} {id : BlockId} {rest order last : List BlockId} : id ∉ order →
      Lists graph rounds
        (rest ++ (graph.successors id).filter fun next => !(order ++ [id]).contains next)
        (order ++ [id]) last →
      Lists graph (rounds + 1) (id :: rest) order last

/-- The loop ends, after a round for each block in the queue and two for each block that it
lists. -/
theorem Closed.lists_enumerate (hclosed : graph.Closed) (queue order : List BlockId)
    (hqueue : ∀ id ∈ queue, id < graph.blocks.size) :
    order.length ≤ (graph.enumerate queue order).length ∧ ∃ rounds,
      rounds + 2 * order.length ≤ queue.length + 2 * (graph.enumerate queue order).length ∧
      graph.Lists rounds queue order (graph.enumerate queue order) := by
  fun_induction enumerate graph queue order with
  | case1 order => exact ⟨Nat.le_refl _, 0, by simp, .done⟩
  | case2 order id rest hold ih =>
      obtain ⟨hlonger, rounds, hrounds, hlists⟩ :=
        ih fun other hother => hqueue other (List.mem_cons_of_mem _ hother)
      refine ⟨hlonger, rounds + 1, ?_, .skip (List.contains_iff_mem.mp hold) hlists⟩
      simp only [List.length_cons]
      omega
  | case3 order id rest hnew hid listed next ih =>
      have hnext : next.length ≤ 2 :=
        (List.length_filter_le _ _).trans (length_successors_le graph id)
      have hlisted : listed.length = order.length + 1 := by simp [listed]
      obtain ⟨hlonger, rounds, hrounds, hlists⟩ := ih <| by
        intro other hother
        rcases List.mem_append.mp hother with hother | hother
        · exact hqueue other (List.mem_cons_of_mem _ hother)
        · exact hclosed.targets id other (List.mem_filter.mp hother).1
      refine ⟨by omega, rounds + 1, ?_, .list (by simpa using hnew) hlists⟩
      simp only [List.length_append, List.length_cons] at hrounds ⊢
      omega
  | case4 order id rest _ hid _ => exact absurd (hqueue id List.mem_cons_self) hid

/-- What is kept when a block is passed over, and when one is listed, holds at the end. -/
theorem Lists.keeps {P : List BlockId → List BlockId → Prop}
    (skip : ∀ id rest order, id ∈ order → P (id :: rest) order → P rest order)
    (list : ∀ id rest order, id ∉ order → P (id :: rest) order →
      P (rest ++ (graph.successors id).filter fun next => !(order ++ [id]).contains next)
        (order ++ [id]))
    (hlists : graph.Lists rounds queue order last) (h : P queue order) : P [] last := by
  induction hlists with
  | done => exact h
  | skip hold _ ih => exact ih (skip _ _ _ hold h)
  | list hnew _ ih => exact ih (list _ _ _ hnew h)

/-- What is listed stays where it is. -/
theorem Lists.keeps_listed (hlists : graph.Lists rounds queue order last) : order <+: last := by
  refine hlists.keeps (P := fun _ listed => order <+: listed) ?_ ?_ (List.prefix_refl order)
  · intro id rest listed _ h
    exact h
  · intro id rest listed _ h
    exact h.trans (List.prefix_append _ _)

/-! ## The frontier -/

/-- The blocks in the queue are `level` edges from the entry, then one more; those with a shorter
path are listed. -/
structure Frontier (graph : Graph) (level : Nat) (near far order : List BlockId) : Prop where
  nearby : ∀ id ∈ near, graph.Leads level id
  farther : ∀ id ∈ far, graph.Leads (level + 1) id
  before : ∀ length < level, ∀ id, graph.Leads length id → id ∈ order
  here : ∀ id, graph.Leads level id → id ∈ order ∨ id ∈ near
  /-- The blocks after a listed one are listed or in the queue. -/
  beyond : ∀ id ∈ order, ∀ next ∈ graph.successors id, next ∈ order ∨ next ∈ near ∨ next ∈ far
  within : ∀ id ∈ order, graph.distance id ≤ level
  sorted : order.Pairwise fun id later => graph.distance id ≤ graph.distance later

theorem frontier_start (graph : Graph) : graph.Frontier 0 [graph.entry] [] [] where
  nearby := by
    intro id hid
    cases List.mem_singleton.mp hid
    exact graph.leads_entry
  farther := nofun
  before := nofun
  here := by
    intro id hid
    exact .inr (List.mem_singleton.mpr hid.eq_entry)
  beyond := nofun
  within := nofun
  sorted := .nil

/-- When no block of a level is left in the queue, the next level begins. -/
theorem Frontier.advance (h : graph.Frontier level [] far order) :
    graph.Frontier (level + 1) far [] order where
  nearby := h.farther
  farther := nofun
  before := by
    intro length hlength id hid
    rcases Nat.lt_succ_iff_lt_or_eq.mp hlength with hlt | rfl
    · exact h.before length hlt id hid
    · exact (h.here id hid).resolve_right List.not_mem_nil
  here := by
    intro id hid
    obtain ⟨before, hbefore, hedge⟩ := hid.exists_step
    have hlisted : before ∈ order := (h.here before hbefore).resolve_right List.not_mem_nil
    rcases h.beyond before hlisted id hedge with hid | hid | hid
    · exact .inl hid
    · cases hid
    · exact .inr hid
  beyond := by
    intro id hid next hnext
    rcases h.beyond id hid next hnext with hnext | hnext | hnext
    · exact .inl hnext
    · cases hnext
    · exact .inr (.inl hnext)
  within := fun id hid => (h.within id hid).trans (Nat.le_succ level)
  sorted := h.sorted

/-- A block that is listed already is passed over. -/
theorem Frontier.skip (h : graph.Frontier level (id :: near) far order) (hold : id ∈ order) :
    graph.Frontier level near far order where
  nearby := fun other hother => h.nearby other (List.mem_cons_of_mem _ hother)
  farther := h.farther
  before := h.before
  here := by
    intro other hother
    rcases h.here other hother with hother | hother
    · exact .inl hother
    · rcases List.mem_cons.mp hother with rfl | hother
      · exact .inl hold
      · exact .inr hother
  beyond := by
    intro listed hlisted next hnext
    rcases h.beyond listed hlisted next hnext with hnext | hnext | hnext
    · exact .inl hnext
    · rcases List.mem_cons.mp hnext with rfl | hnext
      · exact .inl hold
      · exact .inr (.inl hnext)
    · exact .inr (.inr hnext)
  within := h.within
  sorted := h.sorted

/-- A block that comes up and is not listed has no shorter path. -/
theorem Frontier.distance_eq (h : graph.Frontier level (id :: near) far order)
    (hnew : id ∉ order) : graph.distance id = level := by
  have hleads : graph.Leads level id := h.nearby id List.mem_cons_self
  refine Nat.le_antisymm hleads.distance_le (Nat.le_of_not_lt ?_)
  intro hlt
  exact hnew (h.before _ hlt id hleads.at_distance)

/-- A block that is not listed yet is listed, and the blocks after it are put into the queue. -/
theorem Frontier.list (h : graph.Frontier level (id :: near) far order) (hnew : id ∉ order) :
    graph.Frontier level near
      (far ++ (graph.successors id).filter fun next => !(order ++ [id]).contains next)
      (order ++ [id]) where
  nearby := fun other hother => h.nearby other (List.mem_cons_of_mem _ hother)
  farther := by
    intro next hnext
    rcases List.mem_append.mp hnext with hnext | hnext
    · exact h.farther next hnext
    · exact (h.nearby id List.mem_cons_self).step (List.mem_filter.mp hnext).1
  before := by
    intro length hlength other hother
    exact List.mem_append_left _ (h.before length hlength other hother)
  here := by
    intro other hother
    rcases h.here other hother with hother | hother
    · exact .inl (List.mem_append_left _ hother)
    · rcases List.mem_cons.mp hother with rfl | hother
      · exact .inl (by simp)
      · exact .inr hother
  beyond := by
    intro listed hlisted next hnext
    by_cases hin : next ∈ order ++ [id]
    · exact .inl hin
    · rcases List.mem_append.mp hlisted with hlisted | hlisted
      · rcases h.beyond listed hlisted next hnext with hnext | hnext | hnext
        · exact absurd (List.mem_append_left _ hnext) hin
        · rcases List.mem_cons.mp hnext with rfl | hnext
          · exact absurd (List.mem_append_right _ (List.mem_singleton.mpr rfl)) hin
          · exact .inr (.inl hnext)
        · exact .inr (.inr (List.mem_append_left _ hnext))
      · cases List.mem_singleton.mp hlisted
        refine .inr (.inr (List.mem_append_right _ (List.mem_filter.mpr ⟨hnext, ?_⟩)))
        simpa using hin
  within := by
    intro listed hlisted
    rcases List.mem_append.mp hlisted with hlisted | hlisted
    · exact h.within listed hlisted
    · cases List.mem_singleton.mp hlisted
      exact (h.distance_eq hnew).le
  sorted := by
    refine List.pairwise_append.mpr ⟨h.sorted, List.pairwise_singleton _ _, ?_⟩
    intro listed hlisted last hlast
    cases List.mem_singleton.mp hlast
    rw [h.distance_eq hnew]
    exact h.within listed hlisted

/-- The queue is a frontier at some level. -/
def AtFrontier (graph : Graph) (queue order : List BlockId) : Prop :=
  ∃ level near far, queue = near ++ far ∧ graph.Frontier level near far order

/-- The block that comes up is in the first part of a frontier. -/
theorem AtFrontier.exists_near (h : graph.AtFrontier (id :: rest) order) :
    ∃ level near far, rest = near ++ far ∧ graph.Frontier level (id :: near) far order := by
  obtain ⟨level, near, far, hqueue, hfrontier⟩ := h
  cases near with
  | nil =>
      cases hqueue
      exact ⟨level + 1, rest, [], by simp, hfrontier.advance⟩
  | cons first near =>
      cases hqueue
      exact ⟨level, near, far, rfl, hfrontier⟩

/-- A run that begins at a frontier lists blocks by their distance. -/
theorem Lists.sorted (hlists : graph.Lists rounds queue order last)
    (h : graph.AtFrontier queue order) :
    last.Pairwise fun id later => graph.distance id ≤ graph.distance later := by
  have hend : graph.AtFrontier [] last := by
    refine hlists.keeps ?_ ?_ h
    · intro id rest order hold h
      obtain ⟨level, near, far, hrest, hfrontier⟩ := h.exists_near
      exact ⟨level, near, far, hrest, hfrontier.skip hold⟩
    · intro id rest order hnew h
      obtain ⟨level, near, far, hrest, hfrontier⟩ := h.exists_near
      exact ⟨level, near, _, by rw [hrest, List.append_assoc], hfrontier.list hnew⟩
  obtain ⟨level, near, far, -, hfrontier⟩ := hend
  exact hfrontier.sorted

/-! ## The order -/

/-- The loop ends, and what it lists are the blocks that paths lead to, each once, beginning with
the entry and going by distance. -/
theorem order_breadthFirst (hclosed : graph.Closed) :
    (∃ rounds ≤ 2 * graph.order.length + 1, graph.Lists rounds [graph.entry] [] graph.order) ∧
      graph.order.Nodup ∧
      (∀ id, id ∈ graph.order ↔ ∃ passed, graph.Path graph.Edge passed id) ∧
      graph.order.head? = some graph.entry ∧
      graph.order.Pairwise fun id later => graph.distance id ≤ graph.distance later := by
  have hqueue : ∀ id ∈ [graph.entry], id < graph.blocks.size := by
    simpa using hclosed.entry
  obtain ⟨-, rounds, hrounds, hlists⟩ := hclosed.lists_enumerate [graph.entry] [] hqueue
  change graph.Lists rounds [graph.entry] [] graph.order at hlists
  change rounds + 2 * 0 ≤ 1 + 2 * graph.order.length at hrounds
  refine ⟨⟨rounds, by omega, hlists⟩, graph.nodup_order, ?_, ?_, ?_⟩
  · intro id
    rw [mem_order, hclosed.reachable_iff_path]
  · cases hlists with
    | skip hold _ => cases hold
    | list _ hlists =>
        obtain ⟨later, hlater⟩ := hlists.keeps_listed
        simp [← hlater]
  · exact hlists.sorted ⟨0, [graph.entry], [], rfl, graph.frontier_start⟩

/-- Here the queue holds the last block twice, and the block that cannot be reached never. -/
theorem order_breadthFirst_tangled : tangled.Closed ∧ tangled.order = [2, 1, 3, 4] ∧
    [2, 1, 3, 4].Pairwise fun id later => tangled.distance id ≤ tangled.distance later := by
  refine ⟨closed_tangled, order_tangled, ?_⟩
  rw [← order_tangled]
  exact (order_breadthFirst closed_tangled).2.2.2.2

end DefUse.Graph
