/-
# `Proofs.Diagram.Summary` — what is told of blocks by their labels

A caller finds a block by its label, and the dependencies between blocks are summed up
label by label.  Both would be wrong if two reachable blocks had one label: the first
block found would hide the other, and their dependencies would be run together.  As
labels differ, each label speaks of one block (`Program.labels_passes`).
-/
import DefUse.Diagram.Basic
import DefUse.Proofs.Graph.Label
import DefUse.Proofs.Sorted

namespace DefUse

open DefUse.Tree
open scoped List

namespace Graph

variable {graph : Graph}

/-! ## Finding a block -/

theorem map_label_reachable (graph : Graph) :
    graph.reachable.map Block.label = graph.order.map graph.labelOf := by
  have hall : ∀ ids : List BlockId, (∀ id ∈ ids, id < graph.blocks.size) →
      (ids.filterMap graph.block?).map Block.label = ids.map graph.labelOf := by
    intro ids hids
    induction ids with
    | nil => rfl
    | cons id rest ih =>
        obtain ⟨block, hblock⟩ := block?_of_lt (hids id List.mem_cons_self)
        rw [List.filterMap_cons_some hblock, List.map_cons, List.map_cons,
          ih fun other hother => hids other (List.mem_cons_of_mem _ hother),
          labelOf_of_block? hblock]
  exact hall graph.order fun id hid => (mem_order.mp hid).lt

theorem Labelled.nodup_labels (h : graph.Labelled) : (graph.reachable.map Block.label).Nodup := by
  rw [map_label_reachable]
  refine graph.nodup_order.map_on ?_
  intro id hid other hother heq
  exact h.distinct id other (mem_order.mp hid) (mem_order.mp hother) heq

theorem Labelled.find?_eq_some (h : graph.Labelled) {label : String} {block : Block} :
    graph.find? label = some block ↔ block ∈ graph.reachable ∧ block.label = label := by
  constructor
  · intro hfound
    exact ⟨List.mem_of_find?_eq_some hfound, by simpa using List.find?_some hfound⟩
  · rintro ⟨hmem, rfl⟩
    have hsome : (graph.find? block.label).isSome := by
      rw [find?, List.find?_isSome]
      exact ⟨block, hmem, by simp⟩
    obtain ⟨found, hfound⟩ := Option.isSome_iff_exists.mp hsome
    have hlabel : found.label = block.label := by simpa using List.find?_some hfound
    rw [hfound, List.inj_on_of_nodup_map h.nodup_labels (List.mem_of_find?_eq_some hfound) hmem
      hlabel]

/-! ## Dependencies between blocks -/

theorem reachable_of_blockContaining? {site : Site} {id : BlockId}
    (h : graph.blockContaining? site = some id) : graph.Reachable id :=
  mem_order.mp (List.mem_of_find?_eq_some h)

/-- Only reachable blocks read or assign. -/
theorem reachable_of_mem_dependencyPairs {dependencies : Dependencies} {pair : BlockId × BlockId}
    (h : pair ∈ graph.dependencyPairs dependencies) :
    graph.Reachable pair.1 ∧ graph.Reachable pair.2 := by
  rw [dependencyPairs, Sorted.mem_ofList, List.mem_flatMap] at h
  obtain ⟨entry, -, hpair⟩ := h
  rw [pairsOf] at hpair
  split at hpair
  · cases hpair
  · rename_i source hsource
    obtain ⟨target, htarget, rfl⟩ := List.mem_map.mp hpair
    obtain ⟨assignment, -, hassignment⟩ := List.mem_filterMap.mp htarget
    exact ⟨reachable_of_blockContaining? hsource, reachable_of_blockContaining? hassignment⟩

theorem nodup_sortLabels (labels : List String) : (sortLabels labels).Nodup := by
  have hordered : Sorted.Ordered (fun a b : String => a < b) (sortLabels labels) := by
    refine Sorted.ordered_ofList ?_ ?_ labels
    · intro a b c hab hbc
      simp only [decide_eq_true_eq] at hab hbc ⊢
      exact String.lt_trans hab hbc
    · intro a b hab
      simp only [decide_eq_true_eq, decide_eq_false_iff_not] at hab ⊢
      exact String.lt_asymm hab
  exact hordered.imp fun hpair => hpair.1

theorem map_fst_blockDependencies (graph : Graph) (dependencies : Dependencies) :
    (graph.blockDependencies dependencies).map Prod.fst =
      sortLabels (graph.order.map graph.labelOf) := by
  rw [blockDependencies, List.map_map]
  exact List.map_id _

/-- The summary has an entry for every reachable block. -/
theorem Labelled.perm_keys (h : graph.Labelled) (dependencies : Dependencies) :
    (graph.blockDependencies dependencies).map Prod.fst ~ graph.reachable.map Block.label := by
  rw [map_fst_blockDependencies, ← map_label_reachable]
  refine (List.perm_ext_iff_of_nodup (nodup_sortLabels _) h.nodup_labels).mpr ?_
  exact fun label => Sorted.mem_ofList

/-- An entry lists the blocks other than its own whose assignments its own block may read. -/
theorem Labelled.mem_listed (h : graph.Labelled) {dependencies : Dependencies} {id : BlockId}
    {listed : List String} (hid : graph.Reachable id)
    (hentry : (graph.labelOf id, listed) ∈ graph.blockDependencies dependencies) (label : String) :
    label ∈ listed ↔ ∃ other, graph.Reachable other ∧ graph.labelOf other = label ∧ other ≠ id ∧
      (id, other) ∈ graph.dependencyPairs dependencies := by
  obtain ⟨key, -, hkey⟩ := List.mem_map.mp hentry
  obtain ⟨rfl, rfl⟩ := Prod.mk.inj hkey
  simp only [sortLabels, Sorted.mem_ofList, List.mem_map, List.mem_filter, decide_eq_true_eq]
  constructor
  · rintro ⟨⟨source, target⟩, ⟨⟨hpair, hne⟩, hsource⟩, rfl⟩
    obtain ⟨hsource', htarget⟩ := reachable_of_mem_dependencyPairs hpair
    -- no other block has the label of this entry
    cases h.distinct source id hsource' hid hsource
    exact ⟨target, htarget, rfl, Ne.symm hne, hpair⟩
  · rintro ⟨other, -, rfl, hne, hpair⟩
    exact ⟨(id, other), ⟨⟨hpair, Ne.symm hne⟩, rfl⟩, rfl⟩

end Graph

namespace Program

/-- Whatever passes were run, labels identify the reachable blocks: no two have the same one, a
label finds the only block that has it, and in the summary of dependencies each label stands for
one block, both as the one that reads and as one that is read from. -/
theorem labels_passes {program : Program} {built : Graph} (h : program.graph = .ok built)
    (passes : List Pass) :
    ∃ graph, passes.foldlM Graph.apply built = .ok graph ∧
      (graph.reachable.map Block.label).Nodup ∧
      (∀ label block, graph.find? label = some block ↔
        block ∈ graph.reachable ∧ block.label = label) ∧
      ∀ dependencies : Dependencies,
        (graph.blockDependencies dependencies).map Prod.fst ~ graph.reachable.map Block.label ∧
        ∀ id listed, graph.Reachable id →
          (graph.labelOf id, listed) ∈ graph.blockDependencies dependencies →
          (∀ label ∈ listed, ∃ other, graph.Reachable other ∧ graph.labelOf other = label) ∧
          ∀ other, graph.Reachable other → (graph.labelOf other ∈ listed ↔
            other ≠ id ∧ (id, other) ∈ graph.dependencyPairs dependencies) := by
  have hlabelled := labelled_passes h passes
  obtain ⟨hok, -⟩ := (wellFormed_graph h).foldlM_apply passes
  refine ⟨_, hok, hlabelled.nodup_labels, fun _ _ => hlabelled.find?_eq_some, ?_⟩
  intro dependencies
  refine ⟨hlabelled.perm_keys dependencies, ?_⟩
  intro id listed hid hentry
  have hlisted := hlabelled.mem_listed hid hentry
  refine ⟨?_, ?_⟩
  · intro label hlabel
    obtain ⟨other, hother, heq, -⟩ := (hlisted label).mp hlabel
    exact ⟨other, hother, heq⟩
  · intro other hother
    rw [hlisted]
    constructor
    · rintro ⟨same, hsame, heq, hne, hpair⟩
      cases hlabelled.distinct same other hsame hother heq
      exact ⟨hne, hpair⟩
    · exact fun hpair => ⟨other, hother, rfl, hpair⟩

theorem labels_passes_sample : ∃ built graph, sample.graph = .ok built ∧
    [.split, .mergeChains, .split].foldlM Graph.apply built = .ok graph ∧
    (graph.reachable.map Block.label).Nodup := by
  obtain ⟨built, hbuilt⟩ := graph_sample
  obtain ⟨graph, hgraph, hnodup, -⟩ := labels_passes hbuilt [.split, .mergeChains, .split]
  exact ⟨built, graph, hbuilt, hgraph, hnodup⟩

end Program

end DefUse
