/-
# `Proofs.Graph.Strand` — blocks that follow each other without a choice

A block is *linked* to another one if it jumps there and nothing else leads there.
Linked blocks form strands: each begins at a block that no link leads to and runs on
until a block is linked to none.  What a strand does as a whole, the statements of all
its blocks and the exit of the last one, depends on neither how many blocks it has nor
where its statements are cut (`Graph.Bundled`).

So merging and splitting do not change it.  Both replace one block by several that are
linked, or the other way round (`Drawn`), and the strands that went through the block
go through all of them (`Drawn.bundled_iff`).  Where nothing is left to merge, every
strand is one block; hence merging ends with the strands of the graph it began with,
in whatever order it took them (`WellFormed.code?_mergeAll_iff`).
-/
import DefUse.Proofs.Graph.Label

namespace DefUse

open DefUse.Tree

namespace Graph

/-- A jump leads from `head` to `tail`, and nothing else leads to `tail`. -/
structure Link (graph : Graph) (head tail : BlockId) : Prop where
  reached : graph.Reachable head
  exit : graph.exitOf head = .jump tail
  apart : tail ≠ head
  entry : tail ≠ graph.entry
  only : ∀ parent, graph.Reachable parent → tail ∈ graph.successors parent → parent = head

/-- What runs after a block along its strand: the statements of the blocks behind it, and the exit
of the last one. -/
inductive Onward (graph : Graph) : BlockId → Code → Prop
  | stop {id : BlockId} : (∀ tail, ¬ graph.Link id tail) → Onward graph id ⟨[], graph.exitOf id⟩
  | step {id tail : BlockId} {own rest : Code} : graph.Link id tail →
      graph.code? tail = some own → Onward graph tail rest →
      Onward graph id ⟨own.statements ++ rest.statements, rest.exit⟩

/-- A strand begins at the block, and all of it together does what the code does. -/
structure Bundled (graph : Graph) (id : BlockId) (code : Code) : Prop where
  reached : graph.Reachable id
  first : ∀ head, ¬ graph.Link head id
  whole : ∃ own rest, graph.code? id = some own ∧ graph.Onward id rest ∧
    code = ⟨own.statements ++ rest.statements, rest.exit⟩

variable {graph other : Graph} {head tail id : BlockId}

/-! ## Links -/

theorem Link.mem_successors (h : graph.Link head tail) : tail ∈ graph.successors head := by
  rw [successors, h.exit]
  exact List.mem_singleton.mpr rfl

theorem Link.tail_unique (h : graph.Link head tail) {tail' : BlockId}
    (h' : graph.Link head tail') : tail = tail' :=
  Exit.jump.inj (h.exit.symm.trans h'.exit)

theorem WellFormed.link_of_parents (h : graph.WellFormed) (hhead : graph.Reachable head)
    (hexit : graph.exitOf head = .jump tail) (hne : tail ≠ head) (hentry : tail ≠ graph.entry)
    {block : Block} (hblock : graph.block? tail = some block) (hparents : block.parents = [head]) :
    graph.Link head tail := by
  refine ⟨hhead, hexit, hne, hentry, ?_⟩
  intro parent hparent hedge
  exact h.eq_of_parents (.step hparent hedge (lt_of_block? hblock)) hblock hparents hparent hedge

/-- A link is there to be merged. -/
theorem WellFormed.mergeable?_of_link (h : graph.WellFormed) (hlink : graph.Link head tail) :
    graph.mergeable? head = some (head, tail) :=
  h.mergeable?_of_only hlink.reached hlink.exit hlink.apart hlink.entry hlink.only

theorem WellFormed.not_link_of_merged (h : graph.WellFormed) (hmerged : graph.Merged) :
    ¬ graph.Link head tail := by
  intro hlink
  have hmerge := h.mergeable?_of_link hlink
  rw [hmerged head hlink.reached] at hmerge
  cases hmerge

/-- Where nothing is left to merge, every strand is one block. -/
theorem WellFormed.bundled_of_merged (h : graph.WellFormed) (hmerged : graph.Merged)
    {code : Code} :
    graph.Bundled id code ↔ graph.Reachable id ∧ graph.code? id = some code := by
  constructor
  · rintro ⟨hreached, -, own, rest, hown, hrest, rfl⟩
    refine ⟨hreached, ?_⟩
    cases hrest with
    | stop _ => rw [hown, exitOf_of_code? hown, List.append_nil]
    | step hlink _ _ => exact absurd hlink (h.not_link_of_merged hmerged)
  · rintro ⟨hreached, hcode⟩
    refine ⟨hreached, fun _ => h.not_link_of_merged hmerged, code, _, hcode,
      .stop fun _ => h.not_link_of_merged hmerged, ?_⟩
    rw [exitOf_of_code? hcode, List.append_nil]

/-! ## Graphs that agree where they can be reached -/

/-- Both graphs begin at the same block, and do the same at what the first one reaches. -/
structure Agree (graph other : Graph) : Prop where
  wired : graph.Wired
  wired' : other.Wired
  entry : graph.entry = other.entry
  code : ∀ id, graph.Reachable id → graph.code? id = other.code? id

namespace Agree

theorem reachable_of (h : graph.Agree other) (hid : other.Reachable id) : graph.Reachable id :=
  reachable_of_agree h.wired h.entry h.code hid

theorem symm (h : graph.Agree other) : other.Agree graph :=
  ⟨h.wired', h.wired, h.entry.symm, fun id hid => (h.code id (h.reachable_of hid)).symm⟩

theorem reachable_iff (h : graph.Agree other) : graph.Reachable id ↔ other.Reachable id :=
  ⟨h.symm.reachable_of, h.reachable_of⟩

theorem exitOf_eq (h : graph.Agree other) (hid : graph.Reachable id) :
    graph.exitOf id = other.exitOf id := by
  obtain ⟨code, hcode⟩ := code?_of_lt hid.lt
  rw [exitOf_of_code? hcode, exitOf_of_code? (h.code id hid ▸ hcode)]

theorem link (h : graph.Agree other) (hlink : graph.Link head tail) : other.Link head tail := by
  refine ⟨h.reachable_iff.mp hlink.reached, ?_, hlink.apart, h.entry ▸ hlink.entry, ?_⟩
  · rw [← h.exitOf_eq hlink.reached]
    exact hlink.exit
  · intro parent hparent hedge
    have hparent' := h.reachable_of hparent
    exact hlink.only parent hparent' (successors_congr (h.code parent hparent') ▸ hedge)

theorem onward (h : graph.Agree other) {rest : Code} (hrest : graph.Onward id rest) :
    graph.Reachable id → other.Onward id rest := by
  induction hrest with
  | stop hnone =>
      intro hid
      rw [h.exitOf_eq hid]
      exact .stop fun tail hlink => hnone tail (h.symm.link hlink)
  | @step id tail own rest hlink hown _ ih =>
      intro hid
      have htail : graph.Reachable tail :=
        .step hid hlink.mem_successors (lt_of_code? hown)
      exact .step (h.link hlink) (h.code tail htail ▸ hown) (ih htail)

theorem bundled (h : graph.Agree other) {code : Code} (hbundled : graph.Bundled id code) :
    other.Bundled id code := by
  obtain ⟨hreached, hfirst, own, rest, hown, hrest, hcode⟩ := hbundled
  refine ⟨h.reachable_iff.mp hreached, fun head hlink => hfirst head (h.symm.link hlink), ?_⟩
  exact ⟨own, rest, h.code id hreached ▸ hown, h.onward hrest hreached, hcode⟩

theorem bundled_iff (h : graph.Agree other) {code : Code} :
    graph.Bundled id code ↔ other.Bundled id code :=
  ⟨h.bundled, h.symm.bundled⟩

end Agree

theorem Wired.agree_setParents (h : graph.Wired) : graph.setParents.Agree graph :=
  ⟨h.setParents.toWired, h, rfl, fun id _ => code?_setParents graph id⟩

/-! ## One block in place of several -/

/-- Links lead from a block to `last`, and the blocks behind it hold the statements. -/
inductive Strand (graph : Graph) (last : BlockId) : BlockId → List Node → Prop
  | refl : Strand graph last last []
  | step {id tail : BlockId} {own : Code} {more : List Node} : graph.Link id tail →
      graph.code? tail = some own → Strand graph last tail more →
      Strand graph last id (own.statements ++ more)

/-- Where the first graph has one block, `head`, the other one has a strand from there to `last`.
The blocks that it has besides are those in `new`. -/
structure Drawn (graph drawn : Graph) (new : BlockId → Prop) (head last : BlockId) : Prop where
  wired : graph.Wired
  entry : graph.entry = drawn.entry
  reachable : ∀ id, graph.Reachable id ↔ drawn.Reachable id ∧ ¬ new id
  begins : graph.Reachable head
  ends : drawn.Reachable last ∧ new last
  /-- All other blocks are the same. -/
  old : ∀ id, graph.Reachable id → id ≠ head → drawn.code? id = graph.code? id
  /-- The strand does what the block did. -/
  code : ∃ front back next, graph.code? head = some ⟨front ++ back, drawn.exitOf last⟩ ∧
    drawn.code? head = some ⟨front, .jump next⟩ ∧ drawn.Strand last head back
  /-- Before its end it can be left by links only. -/
  inner : ∀ id, drawn.Reachable id → id = head ∨ new id → id ≠ last →
    ∃ next, new next ∧ drawn.Link id next
  /-- The new blocks are reached by links only. -/
  linked : ∀ id, drawn.Reachable id → new id → ∃ parent, drawn.Link parent id

namespace Drawn

variable {drawn : Graph} {new : BlockId → Prop} {last : BlockId} {rest : Code}

theorem ne_last (h : Drawn graph drawn new head last) (hid : graph.Reachable id) : id ≠ last := by
  rintro rfl
  exact ((h.reachable id).mp hid).2 h.ends.2

theorem exitOf_head (h : Drawn graph drawn new head last) :
    graph.exitOf head = drawn.exitOf last := by
  obtain ⟨front, back, next, hcode, -⟩ := h.code
  exact exitOf_of_code? hcode

theorem successors_head (h : Drawn graph drawn new head last) :
    graph.successors head = drawn.successors last := by
  rw [successors, successors, h.exitOf_head]

theorem exitOf_old (h : Drawn graph drawn new head last) (hid : graph.Reachable id)
    (hne : id ≠ head) : drawn.exitOf id = graph.exitOf id := by
  obtain ⟨code, hcode⟩ := code?_of_lt hid.lt
  rw [exitOf_of_code? hcode, exitOf_of_code? ((h.old id hid hne).trans hcode)]

theorem successors_old (h : Drawn graph drawn new head last) (hid : graph.Reachable id)
    (hne : id ≠ head) : drawn.successors id = graph.successors id :=
  successors_congr (h.old id hid hne)

/-- Only the last block of the strand leads to what was there before. -/
theorem parent_cases (h : Drawn graph drawn new head last) {parent : BlockId}
    (hid : graph.Reachable id) (hparent : drawn.Reachable parent)
    (hedge : id ∈ drawn.successors parent) :
    parent = last ∨ graph.Reachable parent ∧ parent ≠ head := by
  by_cases hlast : parent = last
  · exact .inl hlast
  · refine .inr ?_
    have hinner : ¬ (parent = head ∨ new parent) := by
      intro hinner
      obtain ⟨next, hnext, hlink⟩ := h.inner parent hparent hinner hlast
      rw [successors, hlink.exit] at hedge
      rw [List.mem_singleton.mp hedge] at hid
      exact ((h.reachable next).mp hid).2 hnext
    rw [not_or] at hinner
    exact ⟨(h.reachable parent).mpr ⟨hparent, hinner.2⟩, hinner.1⟩

theorem target (h : Drawn graph drawn new head last) {parent : BlockId}
    (hparent : graph.Reachable parent) (hedge : id ∈ graph.successors parent) :
    graph.Reachable id :=
  .step hparent hedge (h.wired.targets _ _ hedge)

/-- Links elsewhere are the same. -/
theorem link_old (h : Drawn graph drawn new head last) (hid : graph.Reachable id)
    (hne : id ≠ head) : drawn.Link id tail ↔ graph.Link id tail := by
  constructor
  · intro hlink
    have hexit := (h.exitOf_old hid hne).symm.trans hlink.exit
    refine ⟨hid, hexit, hlink.apart, h.entry ▸ hlink.entry, ?_⟩
    intro parent hparent hedge
    by_cases hhead : parent = head
    · subst hhead
      rw [h.successors_head] at hedge
      exact absurd (hlink.only last h.ends.1 hedge).symm (h.ne_last hid)
    · rw [← h.successors_old hparent hhead] at hedge
      exact hlink.only parent ((h.reachable parent).mp hparent).1 hedge
  · intro hlink
    have hexit := (h.exitOf_old hid hne).trans hlink.exit
    refine ⟨((h.reachable id).mp hid).1, hexit, hlink.apart, h.entry ▸ hlink.entry, ?_⟩
    intro parent hparent hedge
    rcases h.parent_cases (h.target hid hlink.mem_successors) hparent hedge with
      rfl | ⟨hparent, hhead⟩
    · rw [← h.successors_head] at hedge
      exact absurd (hlink.only head h.begins hedge).symm hne
    · exact hlink.only parent hparent (h.successors_old hparent hhead ▸ hedge)

/-- The last block of the strand is linked to what the one block was linked to. -/
theorem link_last (h : Drawn graph drawn new head last) :
    drawn.Link last tail ↔ graph.Link head tail := by
  constructor
  · intro hlink
    have hexit := h.exitOf_head.trans hlink.exit
    have hedge : tail ∈ graph.successors head := h.successors_head ▸ hlink.mem_successors
    have honly : ∀ parent, graph.Reachable parent → tail ∈ graph.successors parent →
        parent = head := by
      intro parent hparent hedge
      by_contra hhead
      rw [← h.successors_old hparent hhead] at hedge
      have hlast := hlink.only parent ((h.reachable parent).mp hparent).1 hedge
      exact h.ne_last hparent hlast
    refine ⟨h.begins, hexit, ?_, h.entry ▸ hlink.entry, honly⟩
    -- a block that is reached from itself only is not reached at all
    rintro rfl
    obtain ⟨parent, hparent, hne, hedge⟩ := h.begins.exists_parent (h.entry ▸ hlink.entry)
    exact hne (honly parent hparent hedge)
  · intro hlink
    have hexit := h.exitOf_head.symm.trans hlink.exit
    have htail := h.target h.begins hlink.mem_successors
    refine ⟨h.ends.1, hexit, h.ne_last htail, h.entry ▸ hlink.entry, ?_⟩
    intro parent hparent hedge
    rcases h.parent_cases htail hparent hedge with rfl | ⟨hparent, hhead⟩
    · rfl
    · rw [h.successors_old hparent hhead] at hedge
      exact absurd (hlink.only parent hparent hedge) hhead

/-- Behind a block of a strand comes the rest of the strand, and what comes behind that. -/
theorem onward_strand {back : List Node} (hstrand : drawn.Strand last id back)
    (hrest : drawn.Onward last rest) :
    drawn.Onward id ⟨back ++ rest.statements, rest.exit⟩ := by
  induction hstrand with
  | refl => exact hrest
  | step hlink hown _ ih =>
      rw [List.append_assoc]
      exact .step hlink hown ih

theorem onward_drawn (h : Drawn graph drawn new head last) (hrest : graph.Onward id rest) :
    graph.Reachable id →
      (id ≠ head → drawn.Onward id rest) ∧ (id = head → drawn.Onward last rest) := by
  obtain ⟨front, back, next, hcode, hcode', hstrand⟩ := h.code
  induction hrest with
  | @stop id hnone =>
      intro hid
      refine ⟨fun hne => ?_, ?_⟩
      · rw [← h.exitOf_old hid hne]
        exact .stop fun tail hlink => hnone tail ((h.link_old hid hne).mp hlink)
      · rintro rfl
        rw [h.exitOf_head]
        exact .stop fun tail hlink => hnone tail (h.link_last.mp hlink)
  | @step id tail own rest hlink hown _ ih =>
      intro hid
      have htail := h.target hid hlink.mem_successors
      obtain ⟨hold, hlast⟩ := ih htail
      refine ⟨fun hne => ?_, ?_⟩
      · have hlink' := (h.link_old hid hne).mpr hlink
        by_cases hhead : tail = head
        · -- the strand that was one block
          subst hhead
          cases hcode.symm.trans hown
          rw [List.append_assoc]
          exact .step hlink' hcode' (onward_strand hstrand (hlast rfl))
        · exact .step hlink' ((h.old tail htail hhead).trans hown) (hold hhead)
      · rintro rfl
        have hne := hlink.apart
        exact .step (h.link_last.mpr hlink) ((h.old tail htail hne).trans hown) (hold hne)

/-- In the other direction, what comes behind a block of the strand is the rest of the strand and
then what came behind the one block. -/
theorem onward_graph (h : Drawn graph drawn new head last) (hrest : drawn.Onward id rest) :
    (graph.Reachable id → id ≠ head → graph.Onward id rest) ∧
      ∀ back, drawn.Strand last id back →
        ∃ behind, graph.Onward head behind ∧ rest = ⟨back ++ behind.statements, behind.exit⟩ := by
  obtain ⟨front, back, next, hcode, hcode', hstrand⟩ := h.code
  induction hrest with
  | @stop id hnone =>
      refine ⟨fun hid hne => ?_, fun more hmore => ?_⟩
      · rw [h.exitOf_old hid hne]
        exact .stop fun tail hlink => hnone tail ((h.link_old hid hne).mpr hlink)
      · cases hmore with
        | refl =>
            refine ⟨_, .stop fun tail hlink => hnone tail (h.link_last.mpr hlink), ?_⟩
            rw [h.exitOf_head, List.append_nil]
        | step hlink _ _ => exact absurd hlink (hnone _)
  | @step id tail own rest hlink hown _ ih =>
      obtain ⟨hold, hbehind⟩ := ih
      refine ⟨fun hid hne => ?_, fun more hmore => ?_⟩
      · have hlink' := (h.link_old hid hne).mp hlink
        have htail := h.target hid hlink'.mem_successors
        by_cases hhead : tail = head
        · subst hhead
          obtain ⟨behind, honward, rfl⟩ := hbehind back hstrand
          cases hcode'.symm.trans hown
          rw [← List.append_assoc]
          exact .step hlink' hcode honward
        · exact .step hlink' ((h.old tail htail hhead).symm.trans hown) (hold htail hhead)
      · cases hmore with
        | refl =>
            have hlink' := h.link_last.mp hlink
            have htail := h.target h.begins hlink'.mem_successors
            have hne := hlink'.apart
            exact ⟨_, .step hlink' ((h.old tail htail hne).symm.trans hown) (hold htail hne), rfl⟩
        | step hlink' hown' hmore =>
            cases hlink.tail_unique hlink'
            cases hown.symm.trans hown'
            obtain ⟨behind, honward, rfl⟩ := hbehind _ hmore
            exact ⟨behind, honward, by rw [List.append_assoc]⟩

/-- The strands begin where they began. -/
theorem first_iff (h : Drawn graph drawn new head last) (hid : graph.Reachable id) :
    (∀ parent, ¬ drawn.Link parent id) ↔ ∀ parent, ¬ graph.Link parent id := by
  constructor
  · intro hfirst parent hlink
    by_cases hhead : parent = head
    · subst hhead
      exact hfirst last (h.link_last.mpr hlink)
    · exact hfirst parent ((h.link_old hlink.reached hhead).mpr hlink)
  · intro hfirst parent hlink
    rcases h.parent_cases hid hlink.reached hlink.mem_successors with rfl | ⟨hparent, hhead⟩
    · exact hfirst head (h.link_last.mp hlink)
    · exact hfirst parent ((h.link_old hparent hhead).mp hlink)

/-- What the strands do as a whole stays the same. -/
theorem bundled_iff (h : Drawn graph drawn new head last) {code : Code} :
    graph.Bundled id code ↔ drawn.Bundled id code := by
  obtain ⟨front, back, next, hcode, hcode', hstrand⟩ := h.code
  constructor
  · rintro ⟨hid, hfirst, own, rest, hown, hrest, rfl⟩
    refine ⟨((h.reachable id).mp hid).1, (h.first_iff hid).mpr hfirst, ?_⟩
    obtain ⟨hold, hlast⟩ := h.onward_drawn hrest hid
    by_cases hhead : id = head
    · subst hhead
      cases hcode.symm.trans hown
      refine ⟨_, _, hcode', onward_strand hstrand (hlast rfl), ?_⟩
      rw [List.append_assoc]
    · exact ⟨own, rest, (h.old id hid hhead).trans hown, hold hhead, rfl⟩
  · rintro ⟨hid', hfirst, own, rest, hown, hrest, rfl⟩
    have hid : graph.Reachable id := by
      refine (h.reachable id).mpr ⟨hid', fun hnew => ?_⟩
      obtain ⟨parent, hlink⟩ := h.linked id hid' hnew
      exact hfirst parent hlink
    refine ⟨hid, (h.first_iff hid).mp hfirst, ?_⟩
    obtain ⟨hold, hbehind⟩ := h.onward_graph hrest
    by_cases hhead : id = head
    · subst hhead
      obtain ⟨behind, honward, rfl⟩ := hbehind back hstrand
      cases hcode'.symm.trans hown
      refine ⟨_, behind, hcode, honward, ?_⟩
      rw [List.append_assoc]
    · exact ⟨own, rest, (h.old id hid hhead).symm.trans hown, hold hid hhead, rfl⟩

end Drawn

/-! ## Merging -/

/-- Joining two linked blocks makes one of them. -/
theorem Link.drawn_joined (h : graph.WellFormed) (hlink : graph.Link head tail)
    {absorbed : Block} (htail : graph.block? tail = some absorbed)
    (hparents : absorbed.parents = [head]) :
    Drawn (graph.joined head tail absorbed) graph (· = tail) head tail where
  wired := h.toWired.joined head htail
  entry := rfl
  reachable := reachable_joined_iff h hlink.reached hlink.exit hlink.apart hlink.entry htail hparents
  begins := (reachable_joined_iff h hlink.reached hlink.exit hlink.apart hlink.entry htail hparents
    head).mpr ⟨hlink.reached, Ne.symm hlink.apart⟩
  ends := ⟨.step hlink.reached hlink.mem_successors (lt_of_block? htail), rfl⟩
  old := by
    intro id hid hhead
    have hne := ((reachable_joined_iff h hlink.reached hlink.exit hlink.apart hlink.entry htail
      hparents id).mp hid).2
    exact (code?_joined_of_ne hlink.apart hhead hne).symm
  code := by
    obtain ⟨statements, hcode⟩ := code?_head hlink.reached hlink.exit
    have htail' := code?_of_block? htail
    refine ⟨statements, absorbed.statements ++ [], tail, ?_, hcode, .step hlink htail' .refl⟩
    rw [code?_joined hlink.apart, hcode, Option.map_some, if_pos rfl, exitOf_of_block? htail,
      List.append_nil]
  inner := by
    rintro id - (rfl | rfl) hne
    · exact ⟨tail, rfl, hlink⟩
    · exact absurd rfl hne
  linked := by
    rintro id - rfl
    exact ⟨head, hlink⟩

/-- Merging keeps what the strands do, and where the run begins. -/
theorem WellFormed.bundled_mergeAll (h : graph.WellFormed) (fuel : Nat) {code : Code} :
    (Graph.mergeAll fuel graph).Bundled id code ↔ graph.Bundled id code := by
  have hall := mergeAll_keeps
    (P := fun other => other.WellFormed ∧
      ∀ id code, other.Bundled id code ↔ graph.Bundled id code) ?_ fuel graph
    ⟨h, fun _ _ => Iff.rfl⟩
  · exact hall.2 id code
  · rintro other head tail absorbed ⟨hother, hbundled⟩ hhead hexit hne hentry htail hparents
    have hwired := hother.toWired.joined head htail
    have hlink := hother.link_of_parents hhead hexit hne hentry htail hparents
    refine ⟨hwired.setParents, fun id code => ?_⟩
    calc (other.joined head tail absorbed).setParents.Bundled id code
        ↔ (other.joined head tail absorbed).Bundled id code := hwired.agree_setParents.bundled_iff
      _ ↔ other.Bundled id code := (hlink.drawn_joined hother htail hparents).bundled_iff
      _ ↔ graph.Bundled id code := hbundled id code

/-- Merging makes one block of every strand. -/
theorem WellFormed.code?_mergeAll_iff (h : graph.WellFormed) {code : Code} :
    (Graph.mergeAll graph.blocks.size graph).Reachable id ∧
        (Graph.mergeAll graph.blocks.size graph).code? id = some code ↔ graph.Bundled id code :=
  ((h.mergeAll _).bundled_of_merged h.merged_mergeAll).symm.trans (h.bundled_mergeAll _)

/-! ## Splitting -/

section Parted

variable {cut : BlockId} {block : Block} {first : Node} {rest : List Node}

theorem Appended.link {parent : BlockId} (h : graph.Appended parent tail)
    (hhead : graph.Reachable head) (hexit : graph.exitOf head = .jump tail) (hne : tail ≠ head) :
    graph.Link head tail := by
  have hedge : tail ∈ graph.successors head := by
    rw [successors, hexit]
    exact List.mem_singleton.mpr rfl
  exact ⟨hhead, hexit, hne, h.entry, h.only head hhead hedge ▸ h.only⟩

variable (hwired : graph.Wired) (hblock : graph.block? cut = some block) (hrest : rest ≠ [])
  (hcut : graph.Reachable cut)
include hwired hblock hrest hcut

/-- The block that is cut is linked to the first piece. -/
theorem link_parted_self :
    (graph.parted cut block first rest).Link cut graph.blocks.size := by
  have hlt := lt_of_block? hblock
  obtain ⟨parent, happended⟩ :
      ∃ parent, (graph.parted cut block first rest).Appended parent graph.blocks.size :=
    appended_chain hwired hblock hrest (List.length_pos_iff.mpr hrest)
  exact happended.link (reachable_parted hblock hrest hcut)
    (exitOf_of_code? (code?_parted_self hblock)) (by lia)

/-- Every piece but the last is linked to the next one. -/
theorem link_parted_chain {i : Nat} (hi : i + 1 < rest.length) :
    (graph.parted cut block first rest).Link (graph.blocks.size + i)
      (graph.blocks.size + i + 1) := by
  obtain ⟨parent, happended⟩ : ∃ parent,
      (graph.parted cut block first rest).Appended parent (graph.blocks.size + (i + 1)) :=
    appended_chain hwired hblock hrest hi
  obtain ⟨statement, hcode⟩ := code?_parted_chain hblock first (Nat.lt_of_succ_lt hi)
  rw [if_pos hi] at hcode
  exact happended.link
    (reachable_parted_chain hblock (reachable_parted hblock hrest hcut) (Nat.lt_of_succ_lt hi))
    (exitOf_of_code? hcode) (by lia)

omit hwired hrest hcut in
/-- The pieces hold the statements in their order. -/
theorem code?_parted_piece (first : Node) {i : Nat} (hi : i < rest.length) :
    ∃ exit, (graph.parted cut block first rest).code? (graph.blocks.size + i) =
      some ⟨[rest[i]], exit⟩ := by
  have hlt : i < (chain block.label block.exit graph.blocks.size 1 rest).length := by
    rwa [length_chain]
  obtain ⟨piece, hpiece⟩ : ∃ piece,
      (chain block.label block.exit graph.blocks.size 1 rest)[i]? = some piece :=
    ⟨_, List.getElem?_eq_getElem hlt⟩
  obtain ⟨-, statement, hstatement, hheld, -⟩ := getElem?_chain _ _ _ _ _ _ _ hpiece
  rw [List.getElem?_eq_getElem hi, Option.some.injEq] at hstatement
  refine ⟨piece.exit, ?_⟩
  rw [code?_of_block? ((block?_parted_chain hblock i).trans hpiece), Block.code, hheld, hstatement]

/-- From a piece the strand runs over the pieces behind it. -/
theorem strand_parted_chain : ∀ more i : Nat, i + more + 1 = rest.length →
    (graph.parted cut block first rest).Strand (graph.blocks.size + (rest.length - 1))
      (graph.blocks.size + i) (rest.drop (i + 1))
  | 0, i, hi => by
      have hlast : rest.length - 1 = i := by lia
      rw [hlast, List.drop_eq_nil_of_le (by lia)]
      exact .refl
  | more + 1, i, hi => by
      have hlt : i + 1 < rest.length := by lia
      obtain ⟨exit, hcode⟩ := code?_parted_piece hblock first hlt
      rw [List.drop_eq_getElem_cons hlt, ← List.singleton_append]
      exact .step (link_parted_chain hwired hblock hrest hcut hlt) hcode
        (strand_parted_chain more (i + 1) (by lia))

theorem strand_parted_self :
    (graph.parted cut block first rest).Strand (graph.blocks.size + (rest.length - 1)) cut rest := by
  have hpos := List.length_pos_iff.mpr hrest
  obtain ⟨exit, hcode⟩ := code?_parted_piece hblock first hpos
  have hrun := Strand.step (link_parted_self hwired hblock hrest hcut) hcode
    (strand_parted_chain hwired hblock hrest hcut (rest.length - 1) 0 (by lia))
  rwa [List.singleton_append, List.getElem_cons_drop, List.drop_zero] at hrun

/-- Cutting a block makes a strand of it. -/
theorem drawn_parted (hstatements : block.statements = first :: rest) :
    Drawn graph (graph.parted cut block first rest) (graph.blocks.size ≤ ·) cut
      (graph.blocks.size + (rest.length - 1)) where
  wired := hwired
  entry := rfl
  reachable := by
    intro id
    constructor
    · exact fun hid => ⟨reachable_parted hblock hrest hid, Nat.not_le_of_lt hid.lt⟩
    · rintro ⟨hid, hold⟩
      rcases (reachable_parted_iff hwired hblock hrest id).mp hid with hid | ⟨-, hnew, -⟩
      · exact hid
      · exact absurd hnew hold
  begins := hcut
  ends := by
    have hpos := List.length_pos_iff.mpr hrest
    exact ⟨reachable_parted_chain hblock (reachable_parted hblock hrest hcut) (by lia), by lia⟩
  old := fun id hid hne => code?_parted_of_lt hblock hne hid.lt
  code := by
    have hpos := List.length_pos_iff.mpr hrest
    have hlast : rest.length - 1 < rest.length := by lia
    obtain ⟨statement, hcode⟩ := code?_parted_chain hblock first hlast
    rw [if_neg (by lia)] at hcode
    refine ⟨[first], rest, graph.blocks.size, ?_, code?_parted_self hblock,
      strand_parted_self hwired hblock hrest hcut⟩
    rw [code?_of_block? hblock, Block.code, hstatements, exitOf_of_code? hcode]
    rfl
  inner := by
    rintro id hid (rfl | hnew) hne
    · exact ⟨graph.blocks.size, Nat.le_refl _, link_parted_self hwired hblock hrest hcut⟩
    · obtain ⟨i, rfl⟩ := Nat.exists_eq_add_of_le hnew
      have hlt := hid.lt
      rw [size_parted] at hlt
      exact ⟨_, by lia, link_parted_chain hwired hblock hrest hcut (i := i) (by lia)⟩
  linked := by
    intro id hid hnew
    obtain ⟨i, rfl⟩ := Nat.exists_eq_add_of_le hnew
    have hlt := hid.lt
    rw [size_parted] at hlt
    cases i with
    | zero => exact ⟨cut, link_parted_self hwired hblock hrest hcut⟩
    | succ i => exact ⟨_, link_parted_chain hwired hblock hrest hcut (i := i) (by lia)⟩

end Parted

/-- Cutting a block that cannot be reached changes nothing that can. -/
theorem Wired.agree_parted (h : graph.Wired) {cut : BlockId} {block : Block} {first second : Node}
    {rest : List Node} (hblock : graph.block? cut = some block) (hcut : ¬ graph.Reachable cut) :
    graph.Agree (graph.parted cut block first (second :: rest)) := by
  refine ⟨h, h.parted first second rest hblock, rfl, ?_⟩
  intro id hid
  have hne : id ≠ cut := by
    rintro rfl
    exact hcut hid
  exact (code?_parted_of_lt hblock hne hid.lt).symm

/-- Splitting keeps what the strands do. -/
theorem Wired.bundled_splitAll (h : graph.Wired) {code : Code} :
    graph.splitAll.Bundled id code ↔ graph.Bundled id code := by
  have hall := splitAll_keeps
    (P := fun other => other.Wired ∧ ∀ id code, other.Bundled id code ↔ graph.Bundled id code) ?_
    ⟨h, fun _ _ => Iff.rfl⟩
  · exact hall.2 id code
  · rintro other cut block first second rest ⟨hother, hbundled⟩ hblock hstatements
    refine ⟨hother.parted first second rest hblock, fun id code => ?_⟩
    refine Iff.trans ?_ (hbundled id code)
    by_cases hcut : other.Reachable cut
    · exact (drawn_parted hother hblock (List.cons_ne_nil _ _) hcut hstatements).bundled_iff.symm
    · exact (hother.agree_parted hblock hcut).bundled_iff.symm

end Graph

end DefUse
