/-
# `Proofs.Graph.Label` — labels tell the reachable blocks apart

The blocks of a graph are numbered as they are made, and the number can be read off
the label.  The blocks that splitting adds are not: they take the label of the block
they are cut from, `while5`, and count from one, `while5_1`, `while5_2`, however often
a block of that label was cut before.  Blocks that are out of reach may carry these
labels already.

Among the reachable blocks labels differ all the same.  Such a *piece* is reached in one
way only, by a jump from a block with statements (`Appended`); no pass changes that
except by merging the two, and merging leaves no piece in reach (`plain_of_merged`).
And a block that has pieces in reach cannot be cut (`Cut`): cutting left it with one
statement, and only merging would give it more.
-/
import DefUse.Proofs.Graph.Build
import DefUse.Proofs.Graph.Normal
import DefUse.Proofs.Text.Numeral

namespace DefUse

open DefUse.Tree

/-! ## Labels -/

namespace Label

/-- The label is that of a block that was not cut from another one. -/
def Plain (label : String) : Prop :=
  '_' ∉ label.toList

/-- The label is that of a block cut from one labelled `stem`. -/
def PieceOf (stem label : String) : Prop :=
  Plain stem ∧ ∃ count : Nat, label = stem ++ "_" ++ toString count

theorem PieceOf.not_plain {stem label : String} (h : PieceOf stem label) : ¬ Plain label := by
  obtain ⟨-, count, rfl⟩ := h
  intro hplain
  refine hplain ?_
  rw [String.toList_append, String.toList_append]
  exact List.mem_append_left _ (List.mem_append_right _ (List.mem_singleton.mpr rfl))

theorem PieceOf.stem_unique {stem stem' label : String} (h : PieceOf stem label)
    (h' : PieceOf stem' label) : stem = stem' := by
  obtain ⟨hplain, count, rfl⟩ := h
  obtain ⟨-, count', heq⟩ := h'
  exact (Text.eq_of_append_underscore hplain heq).1

/-- What is put before the number of a block: no digits, no underscores and no line feeds. -/
def Word (word : String) : Prop :=
  ∀ c ∈ word.toList, c.isDigit = false ∧ c ≠ '_' ∧ c ≠ '\n'

instance (word : String) : Decidable (Word word) :=
  List.decidableBAll (fun c : Char => c.isDigit = false ∧ c ≠ '_' ∧ c ≠ '\n') word.toList

theorem Word.plain {word : String} (h : Word word) (n : Nat) : Plain (word ++ toString n) := by
  intro hmem
  rw [String.toList_append] at hmem
  rcases List.mem_append.mp hmem with hmem | hmem
  · exact (h _ hmem).2.1 rfl
  · exact absurd (Text.isDigit_of_mem_numeral hmem) (by decide)

theorem Word.number_unique {word word' : String} (h : Word word) (h' : Word word') {i j : Nat}
    (heq : word ++ toString i = word' ++ toString j) : i = j :=
  Text.eq_of_append_numeral (fun c hc => (h c hc).1) (fun c hc => (h' c hc).1) heq

end Label

open Label

namespace Graph

variable {graph other : Graph} {id parent : BlockId}

/-- Changing the rest of a block leaves its label. -/
theorem labelOf_of_map {f : Block → Block} (h : other.block? id = (graph.block? id).map f)
    (hf : ∀ block, (f block).label = block.label) : other.labelOf id = graph.labelOf id := by
  rw [labelOf, labelOf, h]
  cases graph.block? id with
  | none => rfl
  | some block => exact hf block

theorem labelOf_setParents (graph : Graph) (id : BlockId) :
    graph.setParents.labelOf id = graph.labelOf id :=
  labelOf_of_map (block?_setParents graph id) fun _ => rfl

theorem labelOf_turned (gone next : BlockId) (graph : Graph) (id : BlockId) :
    (graph.turned gone next).labelOf id = graph.labelOf id := by
  refine labelOf_of_map (block?_turned gone next id graph) fun block => ?_
  split <;> rfl

theorem labelOf_settleAll (graph : Graph) (id : BlockId) :
    graph.settleAll.labelOf id = graph.labelOf id := by
  refine labelOf_of_map (block?_settleAll graph id) fun block => ?_
  split <;> rfl

theorem labelOf_modify (graph : Graph) (changed id : BlockId) {f : Block → Block}
    (hf : ∀ block, (f block).label = block.label) :
    (graph.modify changed f).labelOf id = graph.labelOf id := by
  refine labelOf_of_map (f := if changed = id then f else fun block => block) ?_ ?_
  · rw [block?_modify]
    split
    · rfl
    · rw [Option.map_id']
  · intro block
    split
    · exact hf block
    · rfl

theorem labelOf_joined (head tail : BlockId) (absorbed : Block) (graph : Graph) (id : BlockId) :
    (graph.joined head tail absorbed).labelOf id = graph.labelOf id := by
  have hemptied : (graph.emptied tail).labelOf id = graph.labelOf id :=
    labelOf_modify graph tail id fun _ => rfl
  have happended : ((graph.emptied tail).append head absorbed.statements).labelOf id =
      (graph.emptied tail).labelOf id := labelOf_modify _ head id fun _ => rfl
  rw [← hemptied, ← happended]
  exact labelOf_modify _ head id fun _ => rfl

/-! ## Pieces and how they are reached -/

/-- The only way to the block is a jump from a block with statements. -/
structure Appended (graph : Graph) (parent id : BlockId) : Prop where
  entry : id ≠ graph.entry
  code : ∃ first more, graph.code? parent = some ⟨first :: more, .jump id⟩
  only : ∀ other, graph.Reachable other → id ∈ graph.successors other → other = parent

/-- The block has one statement at most. -/
def Short (graph : Graph) (id : BlockId) : Prop :=
  ∀ code, graph.code? id = some code → code.statements.length ≤ 1

/-- Labels differ, and the blocks that are cut off another one are reached through it. -/
structure Labelled (graph : Graph) : Prop where
  distinct : ∀ id other, graph.Reachable id → graph.Reachable other →
    graph.labelOf id = graph.labelOf other → id = other
  shape : ∀ id, graph.Reachable id → Plain (graph.labelOf id) ∨
    (∃ stem, PieceOf stem (graph.labelOf id)) ∧ ∃ parent, graph.Appended parent id

/-- As long as a piece is in reach, neither it nor the block it was cut from can be cut. -/
def Cut (graph : Graph) : Prop :=
  ∀ id stem, graph.Reachable id → PieceOf stem (graph.labelOf id) →
    graph.Short id ∧ ∀ other, graph.Reachable other → graph.labelOf other = stem → graph.Short other

theorem Labelled.mono (h : graph.Labelled) (hreach : ∀ id, other.Reachable id → graph.Reachable id)
    (hlabel : ∀ id, other.labelOf id = graph.labelOf id)
    (happended : ∀ id parent, other.Reachable id → graph.Appended parent id →
      ∃ parent, other.Appended parent id) : other.Labelled where
  distinct := by
    intro id id' hid hid' heq
    rw [hlabel, hlabel] at heq
    exact h.distinct id id' (hreach id hid) (hreach id' hid') heq
  shape := by
    intro id hid
    rw [hlabel]
    rcases h.shape id (hreach id hid) with hplain | ⟨hstem, parent, hparent⟩
    · exact .inl hplain
    · exact .inr ⟨hstem, happended id parent hid hparent⟩

theorem Cut.mono (h : graph.Cut) (hreach : ∀ id, other.Reachable id → graph.Reachable id)
    (hlabel : ∀ id, other.labelOf id = graph.labelOf id)
    (hshort : ∀ id, graph.Short id → other.Short id) : other.Cut := by
  intro id stem hid hpiece
  rw [hlabel] at hpiece
  obtain ⟨hself, hstem⟩ := h id stem (hreach id hid) hpiece
  refine ⟨hshort id hself, ?_⟩
  intro id' hid' heq
  rw [hlabel] at heq
  exact hshort id' (hstem id' (hreach id' hid') heq)

/-! ## Parents, empty jumps and true branches -/

theorem Appended.setParents (h : graph.Appended parent id) :
    graph.setParents.Appended parent id where
  entry := h.entry
  code := by
    rw [code?_setParents]
    exact h.code
  only := by
    intro other hother hedge
    rw [successors_setParents] at hedge
    exact h.only other ((reachable_setParents graph other).mp hother) hedge

theorem Labelled.setParents (h : graph.Labelled) : graph.setParents.Labelled :=
  h.mono (fun id => (reachable_setParents graph id).mp) (labelOf_setParents graph)
    fun _ parent _ happended => ⟨parent, happended.setParents⟩

theorem Cut.setParents (h : graph.Cut) : graph.setParents.Cut := by
  refine h.mono (fun id => (reachable_setParents graph id).mp) (labelOf_setParents graph) ?_
  intro id hshort code hcode
  rw [code?_setParents] at hcode
  exact hshort code hcode

theorem Appended.settleAll (hwired : graph.Wired) (h : graph.Appended parent id) :
    graph.settleAll.Appended parent id where
  entry := h.entry
  code := by
    obtain ⟨first, more, hcode⟩ := h.code
    refine ⟨first, more, ?_⟩
    rw [code?_settleAll, hcode, Option.map_some]
    split <;> rfl
  only := by
    intro other hother hedge
    exact h.only other (reachable_settleAll hwired hother)
      (successors_settleAll_subset graph other hedge)

theorem Labelled.settleAll (hwired : graph.Wired) (h : graph.Labelled) :
    graph.settleAll.Labelled :=
  h.mono (fun _ => reachable_settleAll hwired) (labelOf_settleAll graph)
    fun _ parent _ happended => ⟨parent, happended.settleAll hwired⟩

theorem Cut.settleAll (hwired : graph.Wired) (h : graph.Cut) : graph.settleAll.Cut := by
  refine h.mono (fun _ => reachable_settleAll hwired) (labelOf_settleAll graph) ?_
  intro id hshort code hcode
  rw [code?_settleAll] at hcode
  obtain ⟨old, hold, rfl⟩ := Option.map_eq_some_iff.mp hcode
  have hlength := hshort old hold
  split <;> exact hlength

section Turned

variable {gone next : BlockId}

/-- An empty block never leads to a piece, so taking it out turns no edge to one. -/
theorem Appended.turned (h : graph.Appended parent id) (hwf : graph.WellFormed)
    (hgone : graph.Reachable gone) (hcode : graph.code? gone = some ⟨[], .jump next⟩)
    (hne : next ≠ gone) (hid : id ≠ gone) : (graph.turned gone next).Appended parent id := by
  have hreach := reachable_turned_iff hwf hgone hcode hne
  have hnext : id ≠ next := by
    rintro rfl
    have hedge : id ∈ graph.successors gone := by
      rw [successors_of_code? hcode]
      exact List.mem_singleton.mpr rfl
    obtain ⟨first, more, hparent⟩ := h.code
    rw [← h.only gone hgone hedge, hcode] at hparent
    cases hparent
  refine ⟨?_, ?_, ?_⟩
  · show id ≠ if graph.entry = gone then next else graph.entry
    split
    · exact hnext
    · exact h.entry
  · obtain ⟨first, more, hparent⟩ := h.code
    refine ⟨first, more, ?_⟩
    rw [code?_turned, hparent, Option.map_some]
    split
    · rw [Exit.retarget, if_neg hid]
    · rfl
  · intro other hother hedge
    refine h.only other ((hreach other).mp hother).1 ?_
    rw [successors_turned] at hedge
    split at hedge
    · obtain ⟨target, htarget, heq⟩ := List.mem_map.mp hedge
      split at heq
      · exact absurd heq.symm hnext
      · exact heq ▸ htarget
    · exact hedge

theorem Labelled.turned (h : graph.Labelled) (hwf : graph.WellFormed)
    (hgone : graph.Reachable gone) (hcode : graph.code? gone = some ⟨[], .jump next⟩)
    (hne : next ≠ gone) : (graph.turned gone next).Labelled := by
  have hreach := reachable_turned_iff hwf hgone hcode hne
  refine h.mono (fun id hid => ((hreach id).mp hid).1) (labelOf_turned gone next graph) ?_
  intro id parent hid happended
  exact ⟨parent, happended.turned hwf hgone hcode hne ((hreach id).mp hid).2⟩

theorem Cut.turned (h : graph.Cut) (hwf : graph.WellFormed)
    (hgone : graph.Reachable gone) (hcode : graph.code? gone = some ⟨[], .jump next⟩)
    (hne : next ≠ gone) : (graph.turned gone next).Cut := by
  have hreach := reachable_turned_iff hwf hgone hcode hne
  refine h.mono (fun id hid => ((hreach id).mp hid).1) (labelOf_turned gone next graph) ?_
  intro id hshort code hcode'
  rw [code?_turned] at hcode'
  obtain ⟨old, hold, rfl⟩ := Option.map_eq_some_iff.mp hcode'
  have hlength := hshort old hold
  split <;> exact hlength

end Turned

/-! ## Merging -/

section Joined

variable {head tail : BlockId} {absorbed : Block} (hwf : graph.WellFormed)
  (hhead : graph.Reachable head) (hexit : graph.exitOf head = .jump tail) (hne : tail ≠ head)
  (hentry : tail ≠ graph.entry) (htail : graph.block? tail = some absorbed)
  (hparents : absorbed.parents = [head])
include hwf hhead hexit hne hentry htail hparents

/-- A piece behind the absorbed block is behind the block that absorbed it now. -/
theorem Appended.joined (h : graph.Appended parent id) (hid : id ≠ tail) :
    (graph.joined head tail absorbed).Appended (if parent = tail then head else parent) id := by
  have hreach := reachable_joined_iff hwf hhead hexit hne hentry htail hparents
  obtain ⟨first, more, hparent⟩ := h.code
  have hedge : tail ∈ graph.successors head := by
    rw [successors, hexit]
    exact List.mem_singleton.mpr rfl
  have htail' : graph.Reachable tail := .step hhead hedge (lt_of_block? htail)
  refine ⟨h.entry, ?_, ?_⟩
  · split
    · rename_i heq
      subst heq
      have hblock := code?_of_block? htail
      rw [hparent, Option.some.injEq] at hblock
      obtain ⟨statements, hjoined⟩ := code?_joined_head absorbed hne hhead hexit
      have hstatements : absorbed.statements = first :: more :=
        (congrArg Code.statements hblock).symm
      have hjump : absorbed.exit = .jump id := (congrArg Code.exit hblock).symm
      rw [hstatements, hjump] at hjoined
      cases statements with
      | nil => exact ⟨first, more, hjoined⟩
      | cons statement rest => exact ⟨statement, rest ++ first :: more, hjoined⟩
    · rename_i htailne
      have hheadne : parent ≠ head := by
        rintro rfl
        rw [exitOf_of_code? hparent] at hexit
        cases hexit
        exact hid rfl
      exact ⟨first, more, (code?_joined_of_ne hne hheadne htailne).trans hparent⟩
  · intro other hother hstep
    obtain ⟨hother, hothertail⟩ := (hreach other).mp hother
    by_cases heq : other = head
    · subst heq
      rw [successors_joined_head hne hhead hexit htail] at hstep
      rw [if_pos (h.only tail htail' hstep).symm]
    · rw [successors_congr (code?_joined_of_ne hne heq hothertail)] at hstep
      have hsame := h.only other hother hstep
      rw [if_neg (hsame ▸ hothertail), hsame]

theorem Labelled.joined (h : graph.Labelled) : (graph.joined head tail absorbed).Labelled := by
  have hreach := reachable_joined_iff hwf hhead hexit hne hentry htail hparents
  refine h.mono (fun id hid => ((hreach id).mp hid).1) (labelOf_joined head tail absorbed graph) ?_
  intro id parent hid happended
  exact ⟨_, happended.joined hwf hhead hexit hne hentry htail hparents ((hreach id).mp hid).2⟩

end Joined

theorem Labelled.mergeAll (h : graph.Labelled) (hwf : graph.WellFormed) (fuel : Nat) :
    (mergeAll fuel graph).Labelled := by
  have hall := mergeAll_keeps (P := fun other => other.WellFormed ∧ other.Labelled) ?_ fuel graph
    ⟨hwf, h⟩
  · exact hall.2
  · rintro other head tail absorbed ⟨hother, hlabelled⟩ hhead hexit hne hentry htail hparents
    refine ⟨(hother.toWired.joined head htail).setParents, ?_⟩
    exact (hlabelled.joined hother hhead hexit hne hentry htail hparents).setParents

/-- Where nothing is left to merge, no piece is in reach. -/
theorem plain_of_merged (h : graph.Labelled) (hwf : graph.WellFormed) (hmerged : graph.Merged)
    (hid : graph.Reachable id) : Plain (graph.labelOf id) := by
  rcases h.shape id hid with hplain | ⟨-, parent, happended⟩
  · exact hplain
  · obtain ⟨reached, hreached, hne, hedge⟩ := hid.exists_parent happended.entry
    cases happended.only reached hreached hedge
    obtain ⟨first, more, hcode⟩ := happended.code
    have hmergeable := hwf.mergeable?_of_only hreached (exitOf_of_code? hcode) (Ne.symm hne)
      happended.entry happended.only
    rw [hmerged _ hreached] at hmergeable
    cases hmergeable

theorem cut_of_merged (h : graph.Labelled) (hwf : graph.WellFormed) (hmerged : graph.Merged) :
    graph.Cut :=
  fun _ _ hid hpiece => absurd (plain_of_merged h hwf hmerged hid) hpiece.not_plain

/-! ## Splitting -/

section Parted

theorem label_chain (label : String) (exit : Exit) : ∀ (statements : List Node)
    (first count i : Nat) (block : Block),
    (chain label exit first count statements)[i]? = some block →
      block.label = label ++ "_" ++ toString (count + i)
  | [], _, _, _, _, h => by simp [chain] at h
  | [_], _, _, 0, _, h => by
      cases h
      rfl
  | [_], _, _, _ + 1, _, h => by simp [chain] at h
  | _ :: _ :: _, _, _, 0, _, h => by
      cases h
      rfl
  | _ :: second :: rest, first, count, i + 1, block, h => by
      rw [label_chain label exit (second :: rest) (first + 1) (count + 1) i block
        (by simpa [chain] using h), Nat.add_right_comm, Nat.add_assoc]

variable {cut : BlockId} {block : Block} {first : Node} {rest : List Node}

theorem labelOf_parted_of_lt (hblock : graph.block? cut = some block)
    (hid : id < graph.blocks.size) :
    (graph.parted cut block first rest).labelOf id = graph.labelOf id := by
  rw [labelOf, block?_parted hblock]
  by_cases heq : id = cut
  · subst heq
    rw [if_pos rfl, labelOf_of_block? hblock]
  · rw [if_neg heq, if_pos hid]
    rfl

theorem labelOf_parted_chain (hblock : graph.block? cut = some block) {i : Nat}
    (hi : i < rest.length) :
    (graph.parted cut block first rest).labelOf (graph.blocks.size + i) =
      block.label ++ "_" ++ toString (1 + i) := by
  have hlt : i < (chain block.label block.exit graph.blocks.size 1 rest).length := by
    rwa [length_chain]
  have hfound := List.getElem?_eq_getElem hlt
  rw [labelOf_of_block? ((block?_parted_chain hblock i).trans hfound)]
  exact label_chain _ _ _ _ _ _ _ hfound

/-- A piece that was there is reached from the end of the chain, if it was reached from the block
that is cut. -/
theorem Appended.parted (h : graph.Appended parent id) (hwired : graph.Wired)
    (hblock : graph.block? cut = some block) (hrest : rest ≠ []) (hid : id < graph.blocks.size) :
    ∃ parent, (graph.parted cut block first rest).Appended parent id := by
  have hpos := List.length_pos_iff.mpr hrest
  obtain ⟨statement, more, hparent⟩ := h.code
  refine ⟨if parent = cut then graph.blocks.size + (rest.length - 1) else parent, h.entry, ?_, ?_⟩
  · split
    · rename_i heq
      subst heq
      have hi : rest.length - 1 < rest.length := by lia
      obtain ⟨last, hlast⟩ := code?_parted_chain hblock first hi
      refine ⟨last, [], ?_⟩
      have hexit : block.exit = .jump id := by
        rw [← exitOf_of_block? hblock, exitOf_of_code? hparent]
      rw [hlast, if_neg (by lia), hexit]
    · rename_i hne
      exact ⟨statement, more, (code?_parted_of_lt hblock hne (lt_of_code? hparent)).trans hparent⟩
  · intro other hother hedge
    rcases (reachable_parted_iff hwired hblock hrest other).mp hother with
      hother | ⟨hcut, hle, hlt⟩
    · by_cases heq : other = cut
      · subst heq
        rw [successors_parted_self hblock] at hedge
        have := List.mem_singleton.mp hedge
        lia
      · rw [successors_parted_of_lt hblock heq hother.lt] at hedge
        have hsame := h.only other hother hedge
        rw [if_neg (hsame ▸ heq), hsame]
    · obtain ⟨i, rfl⟩ := Nat.exists_eq_add_of_le hle
      rw [successors_parted_chain hblock (by lia)] at hedge
      split at hedge
      · have := List.mem_singleton.mp hedge
        lia
      · rw [if_pos (h.only cut hcut hedge).symm]
        lia

/-- A new piece is reached from the one before it, and the first from the block that is cut. -/
theorem appended_chain (hwired : graph.Wired) (hblock : graph.block? cut = some block)
    (hrest : rest ≠ []) {i : Nat} (hi : i < rest.length) :
    ∃ parent, (graph.parted cut block first rest).Appended parent (graph.blocks.size + i) := by
  have hentry : graph.blocks.size + i ≠ (graph.parted cut block first rest).entry := by
    have hlt : (graph.parted cut block first rest).entry < graph.blocks.size := hwired.entry
    lia
  -- no edge of the old graph leads to a new block
  have hold : ∀ other, graph.blocks.size + i ∉ graph.successors other := by
    intro other hmem
    have hlt := hwired.targets other _ hmem
    lia
  refine ⟨if i = 0 then cut else graph.blocks.size + (i - 1), hentry, ?_, ?_⟩
  · split
    · rename_i hzero
      subst hzero
      exact ⟨first, [], code?_parted_self hblock⟩
    · have hi' : i - 1 < rest.length := by lia
      obtain ⟨statement, hcode⟩ := code?_parted_chain hblock first hi'
      refine ⟨statement, [], ?_⟩
      rw [hcode, if_pos (by lia)]
      have hnext : graph.blocks.size + (i - 1) + 1 = graph.blocks.size + i := by lia
      rw [hnext]
  · intro other hother hedge
    rcases (reachable_parted_iff hwired hblock hrest other).mp hother with
      hother | ⟨-, hle, hlt⟩
    · by_cases heq : other = cut
      · subst heq
        rw [successors_parted_self hblock] at hedge
        have := List.mem_singleton.mp hedge
        rw [if_pos (by lia)]
      · rw [successors_parted_of_lt hblock heq hother.lt] at hedge
        exact absurd hedge (hold other)
    · obtain ⟨j, rfl⟩ := Nat.exists_eq_add_of_le hle
      rw [successors_parted_chain hblock (by lia)] at hedge
      split at hedge
      · have := List.mem_singleton.mp hedge
        rw [if_neg (by lia)]
        lia
      · exact absurd hedge (hold cut)

/-- Cutting leaves the block and its pieces with a statement each. -/
theorem short_parted (hblock : graph.block? cut = some block)
    (h : id = cut ∨ graph.blocks.size ≤ id ∨ graph.Short id) :
    (graph.parted cut block first rest).Short id := by
  intro code hcode
  by_cases heq : id = cut
  · subst heq
    rw [code?_parted_self hblock] at hcode
    cases hcode
    exact Nat.le_refl 1
  · by_cases hlt : id < graph.blocks.size
    · rw [code?_parted_of_lt hblock heq hlt] at hcode
      rcases h with h | h | h
      · exact absurd h heq
      · lia
      · exact h code hcode
    · obtain ⟨i, rfl⟩ := Nat.exists_eq_add_of_le (Nat.le_of_not_lt hlt)
      have hsize := lt_of_code? hcode
      rw [size_parted] at hsize
      have hi : i < rest.length := by lia
      obtain ⟨statement, hcode'⟩ := code?_parted_chain hblock first hi
      rw [hcode'] at hcode
      cases hcode
      exact Nat.le_refl 1

variable (hwired : graph.Wired) (hlabelled : graph.Labelled) (hcut : graph.Cut)
  (hblock : graph.block? cut = some block)
  {second : Node} (hstatements : block.statements = first :: second :: rest)
include hlabelled hcut hblock hstatements

/-- A block that can be cut is no piece, and has none in reach. -/
theorem plain_of_long (hreach : graph.Reachable cut) :
    Plain block.label ∧
      ∀ id, graph.Reachable id → ¬ PieceOf block.label (graph.labelOf id) := by
  have hlong : ¬ graph.Short cut := by
    intro hshort
    have hlength := hshort _ (code?_of_block? hblock)
    rw [Block.code_statements, hstatements] at hlength
    simp at hlength
  have hlabel := labelOf_of_block? hblock
  refine ⟨?_, ?_⟩
  · rcases hlabelled.shape cut hreach with hplain | ⟨⟨stem, hpiece⟩, -⟩
    · rwa [hlabel] at hplain
    · exact absurd (hcut cut stem hreach hpiece).1 hlong
  · intro id hid hpiece
    exact hlong ((hcut id _ hid hpiece).2 cut hreach hlabel)

include hwired

theorem Labelled.parted : (graph.parted cut block first (second :: rest)).Labelled := by
  have hreach : ∀ id, (graph.parted cut block first (second :: rest)).Reachable id ↔ _ :=
    reachable_parted_iff hwired hblock (List.cons_ne_nil second rest)
  have hplain := plain_of_long hlabelled hcut hblock hstatements
  -- a new piece and a block that was there
  have hapart : ∀ id i, graph.Reachable id → graph.Reachable cut → i < (second :: rest).length →
      graph.labelOf id ≠ block.label ++ "_" ++ toString (1 + i) := by
    intro id i hid hcut hi heq
    exact (hplain hcut).2 id hid ⟨(hplain hcut).1, _, heq⟩
  refine ⟨?_, ?_⟩
  · intro id id' hid hid' heq
    rcases (hreach id).mp hid with hid | ⟨hcut, hle, hlt⟩ <;>
      rcases (hreach id').mp hid' with hid' | ⟨hcut', hle', hlt'⟩
    · rw [labelOf_parted_of_lt hblock hid.lt, labelOf_parted_of_lt hblock hid'.lt] at heq
      exact hlabelled.distinct id id' hid hid' heq
    · obtain ⟨i, rfl⟩ := Nat.exists_eq_add_of_le hle'
      rw [labelOf_parted_of_lt hblock hid.lt, labelOf_parted_chain hblock (by lia)] at heq
      exact absurd heq (hapart id i hid hcut' (by lia))
    · obtain ⟨i, rfl⟩ := Nat.exists_eq_add_of_le hle
      rw [labelOf_parted_of_lt hblock hid'.lt, labelOf_parted_chain hblock (by lia)] at heq
      exact absurd heq.symm (hapart id' i hid' hcut (by lia))
    · obtain ⟨i, rfl⟩ := Nat.exists_eq_add_of_le hle
      obtain ⟨j, rfl⟩ := Nat.exists_eq_add_of_le hle'
      rw [labelOf_parted_chain hblock (by lia), labelOf_parted_chain hblock (by lia)] at heq
      have hcount := (Text.eq_of_append_underscore (hplain hcut).1 heq).2
      lia
  · intro id hid
    rcases (hreach id).mp hid with hid | ⟨hcut, hle, hlt⟩
    · rw [labelOf_parted_of_lt hblock hid.lt]
      rcases hlabelled.shape id hid with hplain | ⟨hstem, parent, happended⟩
      · exact .inl hplain
      · exact .inr ⟨hstem, happended.parted hwired hblock (List.cons_ne_nil _ _) hid.lt⟩
    · obtain ⟨i, rfl⟩ := Nat.exists_eq_add_of_le hle
      rw [labelOf_parted_chain hblock (by lia)]
      exact .inr ⟨⟨_, (hplain hcut).1, _, rfl⟩,
        appended_chain hwired hblock (List.cons_ne_nil _ _) (by lia)⟩

theorem Cut.parted : (graph.parted cut block first (second :: rest)).Cut := by
  have hreach : ∀ id, (graph.parted cut block first (second :: rest)).Reachable id ↔ _ :=
    reachable_parted_iff hwired hblock (List.cons_ne_nil second rest)
  have hplain := plain_of_long hlabelled hcut hblock hstatements
  intro id stem hid hpiece
  rcases (hreach id).mp hid with hid | ⟨hreached, hle, hlt⟩
  · rw [labelOf_parted_of_lt hblock hid.lt] at hpiece
    obtain ⟨hself, hstem⟩ := hcut id stem hid hpiece
    refine ⟨short_parted hblock (.inr (.inr hself)), ?_⟩
    intro other hother heq
    rcases (hreach other).mp hother with hother | ⟨-, hle, -⟩
    · rw [labelOf_parted_of_lt hblock hother.lt] at heq
      exact short_parted hblock (.inr (.inr (hstem other hother heq)))
    · exact short_parted hblock (.inr (.inl hle))
  · refine ⟨short_parted hblock (.inr (.inl hle)), ?_⟩
    obtain ⟨i, rfl⟩ := Nat.exists_eq_add_of_le hle
    rw [labelOf_parted_chain hblock (by lia)] at hpiece
    have hstem : block.label = stem := PieceOf.stem_unique ⟨(hplain hreached).1, _, rfl⟩ hpiece
    subst hstem
    intro other hother heq
    rcases (hreach other).mp hother with hother | ⟨-, hle, -⟩
    · rw [labelOf_parted_of_lt hblock hother.lt, ← labelOf_of_block? hblock] at heq
      exact short_parted hblock (.inl (hlabelled.distinct other cut hother hreached heq))
    · exact short_parted hblock (.inr (.inl hle))

end Parted

/-! ## Passes -/

/-- Every pass keeps the labels of the reachable blocks apart. -/
theorem Labelled.after (h : graph.Labelled) (hcut : graph.Cut) (hwf : graph.WellFormed)
    (pass : Pass) : (graph.after pass).Labelled ∧ (graph.after pass).Cut := by
  cases pass with
  | emptyJumps =>
      have hall := bypassAll_keeps
        (P := fun other => other.WellFormed ∧ other.Labelled ∧ other.Cut) ?_ graph.blocks.size graph
        ⟨hwf, h, hcut⟩
      · exact hall.2
      · rintro other id next ⟨hother, hlabelled, hcut⟩ hid hcode hne
        refine ⟨(hother.toWired.turned (Exit.within_jump.mp (hother.exits hcode))).setParents, ?_⟩
        exact ⟨(hlabelled.turned hother hid hcode hne).setParents,
          (hcut.turned hother hid hcode hne).setParents⟩
  | trueBranches =>
      exact ⟨(h.settleAll hwf.toWired).setParents, (hcut.settleAll hwf.toWired).setParents⟩
  | mergeChains =>
      have hmerged := h.mergeAll hwf graph.blocks.size
      exact ⟨hmerged, cut_of_merged hmerged (hwf.mergeAll _) hwf.merged_mergeAll⟩
  | split =>
      have hall := splitAll_keeps
        (P := fun other => other.Wired ∧ other.Labelled ∧ other.Cut) ?_ ⟨hwf.toWired, h, hcut⟩
      · exact ⟨hall.2.1.setParents, hall.2.2.setParents⟩
      · rintro other id block first second rest ⟨hother, hlabelled, hcut⟩ hblock hstatements
        exact ⟨hother.parted first second rest hblock,
          hlabelled.parted hother hcut hblock hstatements,
          hcut.parted hother hlabelled hblock hstatements⟩

theorem Labelled.foldl_after (h : graph.Labelled) (hcut : graph.Cut) (hwf : graph.WellFormed)
    (passes : List Pass) : (passes.foldl Graph.after graph).Labelled := by
  induction passes generalizing graph with
  | nil => exact h
  | cons pass rest ih =>
      obtain ⟨hlabelled, hcut⟩ := h.after hcut hwf pass
      exact ih hlabelled hcut (hwf.apply pass).2

end Graph

/-! ## The graph of a program -/

namespace Draft

variable {graph : Graph}

/-- The blocks are labelled with a word and the number of blocks there were with them. -/
structure Counted (graph : Graph) : Prop where
  counter : graph.counter = graph.blocks.size
  labels : ∀ id < graph.blocks.size, ∃ word, Word word ∧
    graph.labelOf id = word ++ toString (id + 1)

theorem Counted.add (h : Counted graph) {word : String} (hword : Word word) (exit : Exit) :
    Counted (graph.add word exit) where
  counter := by
    rw [Graph.size_add, ← h.counter]
    rfl
  labels := by
    intro id hid
    have hblock := Graph.block?_add graph word exit id
    by_cases hlast : id = graph.blocks.size
    · rw [if_pos hlast] at hblock
      exact ⟨word, hword, by rw [Graph.labelOf_of_block? hblock, h.counter, hlast]⟩
    · rw [if_neg hlast] at hblock
      rw [Graph.size_add] at hid
      rw [Graph.labelOf, hblock]
      exact h.labels id (by lia)

theorem Counted.modify (h : Counted graph) (changed : BlockId) {f : Block → Block}
    (hf : ∀ block, (f block).label = block.label) : Counted (graph.modify changed f) where
  counter := by
    rw [Graph.size_modify, ← h.counter]
    rfl
  labels := by
    intro id hid
    rw [Graph.size_modify] at hid
    rw [Graph.labelOf_modify graph changed id hf]
    exact h.labels id hid

theorem Counted.setExit (h : Counted graph) (changed : BlockId) (exit : Exit) :
    Counted (graph.setExit changed exit) :=
  h.modify changed fun _ => rfl

theorem Counted.append (h : Counted graph) (changed : BlockId) (statements : List Node) :
    Counted (graph.append changed statements) :=
  h.modify changed fun _ => rfl

theorem Counted.cut {draft : Draft} (h : Counted draft.graph) (exit : BlockId → Exit) :
    Counted (draft.cut exit).graph :=
  (h.add (by decide) _).setExit _ _

theorem counted_add (statement : Statement) : ∀ (loop : Option LoopTargets) (draft : Draft),
    Counted draft.graph → Counted (add statement loop draft).graph := by
  induction statement with
  | skip => exact fun _ _ h => h
  | simple node => exact fun _ _ h => h.append _ _
  | seq first second ihFirst ihSecond =>
      exact fun loop draft h => ihSecond loop _ (ihFirst loop draft h)
  | ifElse condition thenArm elseArm ihThen ihElse =>
      intro loop draft h
      have hopen : Counted (draft.openIf condition) :=
        (((h.add (by decide) _).add (by decide) _).add (by decide) _).setExit _ _
      exact ihElse loop _ (ihThen loop _ hopen)
  | whileLoop condition body ih =>
      intro _ draft h
      have hopen : Counted (draft.openWhile condition) :=
        (((h.add (by decide) _).add (by decide) _).add (by decide) _).setExit _ _
      exact ih _ _ hopen
  | doLoop condition body ih =>
      intro _ draft h
      have hopen : Counted (draft.openDo condition) :=
        (((h.add (by decide) _).add (by decide) _).add (by decide) _).setExit _ _
      exact ih _ _ hopen
  | forLoop initializer condition increment body ih =>
      intro _ draft h
      have hopen : Counted (draft.openFor initializer condition increment) :=
        (((((((h.add (by decide) _).add (by decide) _).add (by decide) _).add (by decide) _).add
          (by decide) _).append _ _).append _ _).setExit _ _
      exact ih _ _ hopen
  | jump jump =>
      intro loop draft h
      cases loop with
      | none => exact h
      | some targets => exact h.cut _
  | ret value => exact fun _ _ h => h.cut _

theorem counted_start : Counted start.graph := by
  have hnone : Counted ⟨#[], 0, 0⟩ := ⟨rfl, fun _ hid => absurd hid (Nat.not_lt_zero _)⟩
  exact hnone.add (by decide) _

end Draft

/-- The blocks of a graph fresh from a statement have labels of their own, and none is a piece. -/
theorem Statement.labelled_graph (statement : Statement) :
    statement.graph.Labelled ∧ statement.graph.Cut := by
  have hlabels := (Draft.counted_add statement none Draft.start Draft.counted_start).labels
  have hplain : ∀ id, statement.graph.Reachable id → Plain (statement.graph.labelOf id) := by
    intro id hid
    obtain ⟨word, hword, hlabel⟩ := hlabels id hid.lt
    rw [Statement.graph, hlabel]
    exact hword.plain _
  refine ⟨⟨?_, fun id hid => .inl (hplain id hid)⟩, ?_⟩
  · intro id other hid hother heq
    obtain ⟨word, hword, hlabel⟩ := hlabels id hid.lt
    obtain ⟨word', hword', hlabel'⟩ := hlabels other hother.lt
    rw [Statement.graph, hlabel, hlabel'] at heq
    exact Nat.succ.inj (hword.number_unique hword' heq)
  · intro id stem hid hpiece
    exact absurd (hplain id hid) hpiece.not_plain

/-- Whatever passes were run, the labels of the reachable blocks differ. -/
theorem Program.labelled_passes {program : Program} {built : Graph}
    (h : program.graph = .ok built) (passes : List Pass) :
    (passes.foldl Graph.after built).Labelled := by
  obtain ⟨statement, -, rfl⟩ := statement_of_graph h
  obtain ⟨hlabelled, hcut⟩ := statement.labelled_graph
  exact hlabelled.setParents.foldl_after hcut.setParents statement.wired_graph.setParents passes

end DefUse
