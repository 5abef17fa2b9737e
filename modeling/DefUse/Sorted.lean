/-
# `Sorted` — sets as sorted lists
-/

namespace DefUse.Sorted

variable {α : Type} [DecidableEq α]

/-- Puts an element before the first one it comes before, unless it is met on the
way. -/
def insert (before : α → α → Bool) (a : α) : List α → List α
  | [] => [a]
  | b :: rest =>
    if a = b then b :: rest
    else if before a b then a :: b :: rest
    else b :: insert before a rest

/-- The elements of a list in order, each once. -/
def ofList (before : α → α → Bool) (xs : List α) : List α :=
  xs.foldr (insert before) []

@[simp] theorem mem_insert {before : α → α → Bool} {a x : α} {xs : List α} :
    x ∈ insert before a xs ↔ x = a ∨ x ∈ xs := by
  induction xs with
  | nil => simp [insert]
  | cons b rest ih =>
    by_cases h : a = b
    · subst h
      simp [insert]
    · by_cases hb : before a b = true
      · simp [insert, h, hb]
      · simp only [insert, h, hb, if_false, Bool.false_eq_true, List.mem_cons, ih]
        constructor
        · rintro (h | h | h)
          · exact Or.inr (Or.inl h)
          · exact Or.inl h
          · exact Or.inr (Or.inr h)
        · rintro (h | h | h)
          · exact Or.inr (Or.inl h)
          · exact Or.inl h
          · exact Or.inr (Or.inr h)

@[simp] theorem mem_ofList {before : α → α → Bool} {x : α} {xs : List α} :
    x ∈ ofList before xs ↔ x ∈ xs := by
  induction xs with
  | nil => simp [ofList]
  | cons a rest ih =>
    have hcons : ofList before (a :: rest) = insert before a (ofList before rest) := rfl
    rw [hcons, mem_insert, ih, List.mem_cons]

end DefUse.Sorted
