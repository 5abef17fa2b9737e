/-
# `Proofs.Tree.Nesting` — extents that nest like the nodes

A tree is *well nested* if the extent of a node covers those of its children, no two
children share a character, and a variable has at least one.  Then extents say what the
tree says: of two nodes neither of which lies below the other, no character is in both
(`Node.WellNested.apart`).

An extent may be empty, and two extents of which one is empty share nothing, wherever
they stand.  So "they share nothing" does not mean that one ends before the other begins,
and it is of use only for what has a character.
-/
import DefUse.Proofs.Effect.Within

namespace DefUse.Tree

namespace Site

/-- Does a character of the source belong to the site? -/
def Contains (site : Site) (offset : Nat) : Prop :=
  site.start ≤ offset ∧ offset < site.stop

/-- One extent ends before the other begins, or one of them is empty. -/
def Apart (a b : Site) : Prop :=
  a.stop ≤ b.start ∨ b.stop ≤ a.start ∨ a.stop ≤ a.start ∨ b.stop ≤ b.start

instance (a b : Site) : Decidable (a.Apart b) :=
  inferInstanceAs (Decidable (_ ∨ _))

/-- No character belongs to both. -/
theorem apart_iff {a b : Site} : a.Apart b ↔ ∀ offset, a.Contains offset → ¬ b.Contains offset := by
  constructor
  · rintro h offset ⟨hstart, hstop⟩ ⟨hstart', hstop'⟩
    rcases h with h | h | h | h <;> omega
  · intro h
    by_contra hnot
    simp only [Apart, not_or, Nat.not_le] at hnot
    obtain ⟨hab, hba, ha, hb⟩ := hnot
    refine h (max a.start b.start) ⟨?_, ?_⟩ ⟨?_, ?_⟩ <;> omega

theorem Apart.symm {a b : Site} (h : a.Apart b) : b.Apart a := by
  rcases h with h | h | h | h
  · exact .inr (.inl h)
  · exact .inl h
  · exact .inr (.inr (.inr h))
  · exact .inr (.inr (.inl h))

theorem covers_iff {owner site : Site} :
    owner.covers site = true ↔ owner.start ≤ site.start ∧ site.stop ≤ owner.stop := by
  simp [covers]

theorem Contains.mono {owner site : Site} {offset : Nat} (h : site.Contains offset)
    (hcovers : owner.covers site = true) : owner.Contains offset := by
  obtain ⟨hstart, hstop⟩ := covers_iff.mp hcovers
  exact ⟨Nat.le_trans hstart h.1, Nat.lt_of_lt_of_le h.2 hstop⟩

theorem covers_refl (site : Site) : site.covers site = true :=
  covers_iff.mpr ⟨Nat.le_refl _, Nat.le_refl _⟩

theorem covers_trans {a b c : Site} (h : a.covers b = true) (h' : b.covers c = true) :
    a.covers c = true := by
  rw [covers_iff] at h h' ⊢
  exact ⟨Nat.le_trans h.1 h'.1, Nat.le_trans h'.2 h.2⟩

end Site

namespace Node

/-- What nesting asks of one node and its children. -/
structure Nests (node : Node) : Prop where
  inside : ∀ child ∈ node.children, node.site.covers child.site = true
  apart : node.children.Pairwise fun a b => a.site.Apart b.site
  /-- A variable has a character. -/
  nonempty : node.site.isVariable = true → node.site.start < node.site.stop

instance (node : Node) : Decidable node.Nests :=
  decidable_of_iff ((∀ child ∈ node.children, node.site.covers child.site = true) ∧
      node.children.Pairwise (fun a b => a.site.Apart b.site) ∧
      (node.site.isVariable = true → node.site.start < node.site.stop))
    ⟨fun h => ⟨h.1, h.2.1, h.2.2⟩, fun h => ⟨h.inside, h.apart, h.nonempty⟩⟩

/-- The extents nest like the nodes. -/
def WellNested (root : Node) : Prop :=
  ∀ node ∈ root.nodes, node.Nests

instance (root : Node) : Decidable root.WellNested :=
  inferInstanceAs (Decidable (∀ node ∈ root.nodes, node.Nests))

namespace WellNested

variable {site : Site} {children : List Node}

theorem child (h : (mk site children).WellNested) {child : Node} (hchild : child ∈ children) :
    child.WellNested := by
  intro node hnode
  exact h node (List.mem_cons_of_mem _ ((sublist_of_mem hchild).subset hnode))

mutual

/-- A node covers all nodes below it. -/
theorem covers : ∀ {root : Node}, root.WellNested → ∀ node ∈ root.nodes,
    root.site.covers node.site = true
  | mk site children, h, node, hnode => by
      rcases List.mem_cons.mp hnode with rfl | hnode
      · exact Site.covers_refl _
      · refine coversAll (fun child hchild => h.child hchild) ?_ node hnode
        exact (h _ (mem_nodes_self _)).inside

theorem coversAll {owner : Site} : ∀ {nodes : List Node}, (∀ child ∈ nodes, child.WellNested) →
    (∀ child ∈ nodes, owner.covers child.site = true) → ∀ node ∈ nodesAll nodes,
    owner.covers node.site = true
  | [], _, _, _, hnode => nomatch hnode
  | child :: rest, h, hcovers, node, hnode => by
      rw [nodesAll] at hnode
      rcases List.mem_append.mp hnode with hnode | hnode
      · exact Site.covers_trans (hcovers child List.mem_cons_self)
          (covers (h child List.mem_cons_self) node hnode)
      · exact coversAll (fun other hother => h other (List.mem_cons_of_mem _ hother))
          (fun other hother => hcovers other (List.mem_cons_of_mem _ hother)) node hnode

end

/-- What lies below different children has no character in common. -/
theorem apart_below {a b node other : Node} (ha : a.WellNested) (hb : b.WellNested)
    (h : a.site.Apart b.site) (hnode : node ∈ a.nodes) (hother : other ∈ b.nodes) :
    node.site.Apart other.site := by
  rw [Site.apart_iff] at h ⊢
  intro offset hoffset hoffset'
  exact h offset (hoffset.mono (ha.covers node hnode)) (hoffset'.mono (hb.covers other hother))

mutual

/-- Of two nodes one lies below the other, or no character belongs to both. -/
theorem apart : ∀ {root : Node}, root.WellNested → ∀ node ∈ root.nodes, ∀ other ∈ root.nodes,
    node ∈ other.nodes ∨ other ∈ node.nodes ∨ node.site.Apart other.site
  | mk site children, h, node, hnode, other, hother => by
      rcases List.mem_cons.mp hnode with rfl | hbelow
      · exact .inr (.inl hother)
      · rcases List.mem_cons.mp hother with rfl | hbelow'
        · exact .inl hnode
        · exact apartAll (fun child hchild => h.child hchild) (h _ (mem_nodes_self _)).apart node
            hbelow other hbelow'

theorem apartAll : ∀ {nodes : List Node}, (∀ child ∈ nodes, child.WellNested) →
    nodes.Pairwise (fun a b => a.site.Apart b.site) → ∀ node ∈ nodesAll nodes,
    ∀ other ∈ nodesAll nodes,
    node ∈ other.nodes ∨ other ∈ node.nodes ∨ node.site.Apart other.site
  | [], _, _, _, hnode, _, _ => nomatch hnode
  | child :: rest, h, hapart, node, hnode, other, hother => by
      obtain ⟨hfirst, hrest⟩ := List.pairwise_cons.mp hapart
      have hchild := h child List.mem_cons_self
      have hothers : ∀ sibling ∈ rest, sibling.WellNested := fun sibling hsibling =>
        h sibling (List.mem_cons_of_mem _ hsibling)
      -- nodes below the first child and below a later one
      have hacross : ∀ {node other : Node}, node ∈ child.nodes → other ∈ nodesAll rest →
          node.site.Apart other.site := by
        intro node other hnode hother
        rw [nodesAll_eq, List.mem_flatMap] at hother
        obtain ⟨sibling, hsibling, hother⟩ := hother
        exact apart_below hchild (hothers sibling hsibling) (hfirst sibling hsibling) hnode hother
      rw [nodesAll] at hnode hother
      rcases List.mem_append.mp hnode with hnode | hnode
      · rcases List.mem_append.mp hother with hother | hother
        · exact apart hchild node hnode other hother
        · exact .inr (.inr (hacross hnode hother))
      · rcases List.mem_append.mp hother with hother | hother
        · exact .inr (.inr (hacross hother hnode).symm)
        · exact apartAll hothers hrest node hnode other hother

end

end WellNested

end Node

end DefUse.Tree
