/-
# `Proofs.Sorted` — sets as sorted lists are sorted

An order that tells no two different elements apart may leave them in any order, so
what is said is the weaker thing: no element stands before one that it comes after.
-/
import DefUse.Sorted

namespace DefUse.Sorted

variable {α : Type} [DecidableEq α] {before : α → α → Bool}

/-- No element is there twice, and none before one that it comes after. -/
def Ordered (before : α → α → Bool) (xs : List α) : Prop :=
  xs.Pairwise fun first second => first ≠ second ∧ before second first = false

theorem Ordered.insert (htrans : ∀ a b c, before a b = true → before b c = true → before a c = true)
    (hasymm : ∀ a b, before a b = true → before b a = false) {xs : List α}
    (h : Ordered before xs) (a : α) : Ordered before (insert before a xs) := by
  induction xs with
  | nil => exact List.pairwise_singleton _ _
  | cons b rest ih =>
      obtain ⟨hfirst, hrest⟩ := List.pairwise_cons.mp h
      rw [Sorted.insert]
      split
      · exact h
      · rename_i hne
        split
        · rename_i hbefore
          refine List.pairwise_cons.mpr ⟨fun c hc => ?_, h⟩
          rcases List.mem_cons.mp hc with rfl | hc
          · exact ⟨hne, hasymm a c hbefore⟩
          · obtain ⟨-, hlater⟩ := hfirst c hc
            constructor
            · rintro rfl
              rw [hbefore] at hlater
              cases hlater
            · rw [← Bool.not_eq_true]
              intro hearlier
              rw [htrans c a b hearlier hbefore] at hlater
              cases hlater
        · rename_i hlater
          refine List.pairwise_cons.mpr ⟨fun c hc => ?_, ih hrest⟩
          rcases mem_insert.mp hc with rfl | hc
          · exact ⟨Ne.symm hne, Bool.not_eq_true _ ▸ hlater⟩
          · exact hfirst c hc

theorem ordered_ofList (htrans : ∀ a b c, before a b = true → before b c = true → before a c = true)
    (hasymm : ∀ a b, before a b = true → before b a = false) (xs : List α) :
    Ordered before (ofList before xs) := by
  induction xs with
  | nil => exact List.Pairwise.nil
  | cons a rest ih => exact ih.insert htrans hasymm a

end DefUse.Sorted
