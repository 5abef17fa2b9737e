/-
# `Proofs.Dependency.Passage` — one way through a block

Going through a block, the analysis notes for every read what it depends on.  Two
things have to be right: the notes of the reads of the block are those of this way
through it, and all other notes stay (`Passage.mem_reads_foldl`).

Notes are kept in document order.  A note takes the place of an older one of the same
read because the older one is met on the way to the place where a new one would be
put; that needs the order to be one (`Site.before_trans`), and the notes to be in it
(`ReadMap.Ordered`).
-/
import DefUse.Proofs.Dependency.Action
import DefUse.Proofs.Sorted

namespace DefUse

open DefUse.Tree

/-! ## Document order -/

namespace Tree.Site

theorem before_iff {a b : Site} : a.before b = true ↔
    a.start < b.start ∨ a.start = b.start ∧
      (b.stop < a.stop ∨ a.stop = b.stop ∧ a.id < b.id) := by
  rw [before]
  split
  · rename_i hstart
    split
    · rename_i hstop
      simp [hstart, hstop]
    · rename_i hstop
      simp [hstart, hstop]
  · rename_i hstart
    simp [hstart]

theorem before_trans {a b c : Site} (h : a.before b = true) (h' : b.before c = true) :
    a.before c = true := by
  rw [before_iff] at h h' ⊢
  omega

theorem before_asymm {a b : Site} (h : a.before b = true) : b.before a = false := by
  rw [← Bool.not_eq_true]
  intro h'
  rw [before_iff] at h h'
  omega

/-- Of two sites with different numbers one comes before the other. -/
theorem before_of_not_before {a b : Site} (hid : a.id ≠ b.id) (h : b.before a = false) :
    a.before b = true := by
  rw [← Bool.not_eq_true, before_iff] at h
  rw [before_iff]
  omega

end Tree.Site

namespace ReadMap

/-- No read is noted twice, and none before one that it comes after. -/
def Ordered (map : ReadMap) : Prop :=
  map.Pairwise fun first second => first.1 ≠ second.1 ∧ second.1.before first.1 = false

theorem Ordered.nodup {map : ReadMap} (h : map.Ordered) : (map.map Prod.fst).Nodup := by
  rw [List.Nodup, List.pairwise_map]
  exact h.imp fun hne => hne.1

/-- A note replaces the one of the same read and leaves all others. -/
theorem mem_record {map : ReadMap} (h : map.Ordered) {read site : Site}
    {reaching assignments : List Assignment} :
    (site, assignments) ∈ map.record read reaching ↔
      site = read ∧ assignments = reaching ∨ site ≠ read ∧ (site, assignments) ∈ map := by
  induction map with
  | nil =>
      rw [record, List.mem_singleton, Prod.mk.injEq]
      simp
  | cons entry rest ih =>
      obtain ⟨hentry, hrest⟩ := List.pairwise_cons.mp h
      rw [record]
      split
      · rename_i heq
        subst heq
        rw [List.mem_cons, List.mem_cons, Prod.mk.injEq]
        constructor
        · rintro (hnew | hold)
          · exact .inl hnew
          · exact .inr ⟨fun heq => (hentry _ hold).1 heq.symm, .inr hold⟩
        · rintro (hnew | ⟨hne, rfl | hold⟩)
          · exact .inl hnew
          · exact absurd rfl hne
          · exact .inr hold
      · rename_i hne
        split
        · rename_i hbefore
          rw [List.mem_cons, Prod.mk.injEq]
          constructor
          · rintro (hnew | hold)
            · exact .inl hnew
            · refine .inr ⟨?_, hold⟩
              rintro rfl
              -- the read would have been met before
              rcases List.mem_cons.mp hold with rfl | hold
              · exact hne rfl
              · rw [(hentry _ hold).2] at hbefore
                cases hbefore
          · rintro (hnew | ⟨-, hold⟩)
            · exact .inl hnew
            · exact .inr hold
        · rw [List.mem_cons, ih hrest, List.mem_cons]
          constructor
          · rintro (rfl | hnew | ⟨hsite, hold⟩)
            · exact .inr ⟨Ne.symm hne, .inl rfl⟩
            · exact .inl hnew
            · exact .inr ⟨hsite, .inr hold⟩
          · rintro (hnew | ⟨hsite, rfl | hold⟩)
            · exact .inr (.inl hnew)
            · exact .inl rfl
            · exact .inr (.inr ⟨hsite, hold⟩)

theorem Ordered.record {map : ReadMap} (h : map.Ordered) (read : Site)
    (reaching : List Assignment) : (map.record read reaching).Ordered := by
  induction map with
  | nil => exact List.pairwise_singleton _ _
  | cons entry rest ih =>
      obtain ⟨hentry, hrest⟩ := List.pairwise_cons.mp h
      rw [ReadMap.record]
      split
      · rename_i heq
        subst heq
        exact List.pairwise_cons.mpr ⟨hentry, hrest⟩
      · rename_i hne
        split
        · rename_i hbefore
          refine List.pairwise_cons.mpr ⟨fun other hother => ?_, h⟩
          rcases List.mem_cons.mp hother with rfl | hother
          · exact ⟨hne, Site.before_asymm hbefore⟩
          · obtain ⟨hother, hlater⟩ := hentry other hother
            constructor
            · rintro rfl
              rw [hbefore] at hlater
              cases hlater
            · rw [← Bool.not_eq_true]
              intro hearlier
              rw [Site.before_trans hearlier hbefore] at hlater
              cases hlater
        · rename_i hlater
          refine List.pairwise_cons.mpr ⟨fun other hother => ?_, ih hrest⟩
          obtain ⟨site, assignments⟩ := other
          rcases (mem_record hrest).mp hother with ⟨rfl, -⟩ | ⟨-, hold⟩
          · exact ⟨Ne.symm hne, Bool.not_eq_true _ ▸ hlater⟩
          · exact hentry _ hold

end ReadMap

/-- The assignments are in document order, each once. -/
def Assignment.Arranged (assignments : List Assignment) : Prop :=
  Sorted.Ordered (fun a b => a.site.before b.site) assignments

theorem Assignment.arranged_arrange (assignments : List Assignment) :
    Arranged (arrange assignments) := by
  refine Sorted.ordered_ofList ?_ ?_ assignments
  · exact fun _ _ _ => Site.before_trans
  · exact fun _ _ => Site.before_asymm

/-! ## A sequence of actions -/

/-- The sites that are read, in order. -/
def readSites (actions : List Action) : List Site :=
  actions.filterMap fun
    | .read site => some site
    | .write _ => none

theorem mem_readSites {site : Site} {actions : List Action} :
    site ∈ readSites actions ↔ .read site ∈ actions := by
  rw [readSites, List.mem_filterMap]
  constructor
  · rintro ⟨action, hmem, heq⟩
    cases action with
    | read read =>
        cases heq
        exact hmem
    | write assignment => cases heq
  · intro hmem
    exact ⟨_, hmem, rfl⟩

namespace Passage

variable (program : Program) (names : Names)

/-- One action of a block. -/
def act (passage : Passage) : Action → Passage
  | .read site => passage.read names site
  | .write assignment => passage.write program names assignment

/-- The way through a block is that through its actions. -/
theorem through_eq (effects : BlockEffects) (passage : Passage) :
    passage.through program names effects = effects.actions.foldl (act program names) passage := by
  have hreads : ∀ (sites : List Site) (passage : Passage),
      (sites.map Action.read).foldl (act program names) passage =
        sites.foldl (Passage.read names) passage :=
    fun sites passage => List.foldl_map
  have hwrites : ∀ (writes : List Assignment) (passage : Passage),
      (writes.map Action.write).foldl (act program names) passage =
        writes.foldl (Passage.write program names) passage :=
    fun writes passage => List.foldl_map
  have hsteps : ∀ (steps : List Effect) (passage : Passage),
      (steps.flatMap Effect.actions).foldl (act program names) passage =
        steps.foldl (Passage.step program names) passage := by
    intro steps
    induction steps with
    | nil => exact fun _ => rfl
    | cons effect rest ih =>
        intro passage
        rw [List.flatMap_cons, List.foldl_append, ih, Effect.actions, List.foldl_append, hreads,
          hwrites]
        rfl
  rw [through, BlockEffects.actions, List.foldl_append, hsteps, hreads]

variable {program names}

theorem definitions_act (passage : Passage) (action : Action) :
    (passage.act program names action).definitions =
      Definitions.act names passage.definitions action := by
  cases action with
  | read site => rfl
  | write assignment =>
      rw [act, Passage.write, Definitions.act]
      cases names.get? assignment.target <;> rfl

/-- The definitions at the end of the block. -/
theorem definitions_foldl (actions : List Action) (passage : Passage) :
    (actions.foldl (act program names) passage).definitions =
      Definitions.after names actions passage.definitions := by
  induction actions generalizing passage with
  | nil => rfl
  | cons action rest ih =>
      rw [List.foldl_cons, ih, definitions_act]
      rfl

theorem reads_write (passage : Passage) (assignment : Assignment) :
    (passage.write program names assignment).reads = passage.reads := by
  rw [Passage.write]
  cases names.get? assignment.target <;> rfl

theorem ordered_foldl (actions : List Action) (passage : Passage) (h : passage.reads.Ordered) :
    (actions.foldl (act program names) passage).reads.Ordered := by
  induction actions generalizing passage with
  | nil => exact h
  | cons action rest ih =>
      rw [List.foldl_cons]
      refine ih _ ?_
      cases action with
      | read site => exact h.record site _
      | write assignment =>
          rw [act, reads_write]
          exact h

/-- A read of the block is noted with the definitions that are current when it is made; notes of
other reads stay. -/
theorem mem_reads_foldl (actions : List Action) (hnodup : (readSites actions).Nodup)
    (passage : Passage) (h : passage.reads.Ordered) (site : Site)
    (assignments : List Assignment) :
    (site, assignments) ∈ (actions.foldl (act program names) passage).reads ↔
      (∃ before after, actions = before ++ .read site :: after ∧ assignments =
        (Definitions.after names before passage.definitions).reaching (nameOf names site)) ∨
      site ∉ readSites actions ∧ (site, assignments) ∈ passage.reads := by
  induction actions generalizing passage with
  | nil => simp [readSites]
  | cons action rest ih =>
      rw [List.foldl_cons]
      cases action with
      | read read =>
          have hcons : readSites (.read read :: rest) = read :: readSites rest := rfl
          rw [hcons] at hnodup ⊢
          obtain ⟨hnot, hnodup⟩ := List.nodup_cons.mp hnodup
          rw [ih hnodup _ (h.record read _)]
          show _ ∨ _ ∧ (site, assignments) ∈ passage.reads.record read _ ↔ _
          rw [ReadMap.mem_record h, List.mem_cons, not_or]
          constructor
          · rintro (⟨before, after, rfl, hnote⟩ | ⟨hrest, ⟨rfl, rfl⟩ | ⟨hne, hold⟩⟩)
            · exact .inl ⟨.read read :: before, after, rfl, hnote⟩
            · exact .inl ⟨[], rest, rfl, rfl⟩
            · exact .inr ⟨⟨hne, hrest⟩, hold⟩
          · rintro (⟨before, after, heq, hnote⟩ | ⟨⟨hne, hrest⟩, hold⟩)
            · cases before with
              | nil =>
                  cases heq
                  exact .inr ⟨hnot, .inl ⟨rfl, hnote⟩⟩
              | cons first before =>
                  cases heq
                  exact .inl ⟨before, after, rfl, hnote⟩
            · exact .inr ⟨hrest, .inr ⟨hne, hold⟩⟩
      | write assignment =>
          have hcons : readSites (.write assignment :: rest) = readSites rest := rfl
          rw [hcons] at hnodup ⊢
          have hreads : (passage.act program names (.write assignment)).reads = passage.reads :=
            reads_write passage assignment
          rw [ih hnodup _ (hreads ▸ h), hreads, definitions_act]
          constructor
          · rintro (⟨before, after, rfl, hnote⟩ | hold)
            · exact .inl ⟨.write assignment :: before, after, rfl, hnote⟩
            · exact .inr hold
          · rintro (⟨before, after, heq, hnote⟩ | hold)
            · cases before with
              | nil => cases heq
              | cons first before =>
                  cases heq
                  exact .inl ⟨before, after, rfl, hnote⟩
            · exact .inr hold

end Passage

end DefUse
