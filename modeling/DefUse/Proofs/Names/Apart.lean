/-
# `Proofs.Names.Apart` — when names tell variables apart

Variables of one spelling are numbered, so their names differ.  But the number stands
right after the spelling, and nothing keeps the result from being the spelling of
another variable, or its name: the second `x` is called `x2`, and so is a variable
spelled that way (`Program.names_collide`).

When this happens can be said exactly (`Program.tellsApart_iff`).  It takes a spelling
that is another one with a number after it, and enough declarations of both that the
numbers given to two of them make the texts run together (`Program.Clash`).
-/
import DefUse.Proofs.Graph.Build
import DefUse.Proofs.Names.Binding
import DefUse.Proofs.Text.Numeral

namespace DefUse

open DefUse.Tree

/-! ## Names with numbers -/

namespace Resolver

/-- The name of a spelling that ends in a number, and that of the spelling without it. -/
theorem nameOf_numbered_iff (spelling : String) {n i j : Nat} (hi : 0 < i) (hj : 0 < j) :
    nameOf (spelling ++ toString n) i = nameOf spelling j ↔
      1 < j ∧ (i = 1 ∧ j = n ∨ 1 < i ∧ toString j = toString n ++ toString i) := by
  rw [nameOf, nameOf]
  split <;> split
  · rename_i hfirst hfirst'
    subst hfirst'
    exact ⟨fun heq => absurd heq (Text.append_ne_self spelling (Text.length_numeral_pos n)),
      fun h => absurd h.1 (Nat.lt_irrefl 1)⟩
  · rename_i hfirst hlater
    subst hfirst
    rw [String.append_right_inj]
    constructor
    · intro heq
      exact ⟨by omega, .inl ⟨rfl, Text.numeral_injective (congrArg String.toList heq.symm)⟩⟩
    · rintro ⟨-, ⟨-, rfl⟩ | ⟨hlt, -⟩⟩
      · rfl
      · exact absurd hlt (Nat.lt_irrefl 1)
  · rename_i hlater hfirst
    subst hfirst
    have hpos : 0 < (toString n ++ toString i).toList.length := by
      rw [String.toList_append, List.length_append]
      exact Nat.add_pos_left (Text.length_numeral_pos n) _
    rw [String.append_assoc]
    exact ⟨fun heq => absurd heq (Text.append_ne_self spelling hpos),
      fun h => absurd h.1 (Nat.lt_irrefl 1)⟩
  · rename_i hlater hlater'
    rw [String.append_assoc, String.append_right_inj]
    constructor
    · intro heq
      exact ⟨by omega, .inr ⟨by omega, heq.symm⟩⟩
    · rintro ⟨-, ⟨hfirst, -⟩ | ⟨-, heq⟩⟩
      · exact absurd hfirst hlater
      · exact heq.symm

/-- The name determines spelling and number, up to a number at the end of the spelling. -/
theorem nameOf_eq {spelling other : String} {i j : Nat} (hi : 0 < i) (hj : 0 < j)
    (h : nameOf spelling i = nameOf other j) :
    spelling = other ∧ i = j ∨
      ∃ n, 0 < n ∧ (spelling = other ++ toString n ∨ other = spelling ++ toString n) := by
  rw [nameOf, nameOf] at h
  split at h <;> split at h
  · rename_i hfirst hfirst'
    exact .inl ⟨h, hfirst.trans hfirst'.symm⟩
  · exact .inr ⟨j, hj, .inl h⟩
  · exact .inr ⟨i, hi, .inr h.symm⟩
  · exact Text.append_numeral_eq hi hj h

end Resolver

/-! ## The names of a program -/

namespace Program

variable {program : Program}

/-- How many declarations have a spelling. -/
def times (program : Program) (spelling : String) : Nat :=
  program.declarations.countP fun site => program.text site = spelling

/-- Declarations have different names, and occurrences have one name only if they belong to one
declaration. -/
structure TellsApart (program : Program) : Prop where
  declarations : ∀ site ∈ program.declarations, ∀ other ∈ program.declarations,
    program.names.get? site = program.names.get? other → site = other
  occurrences : ∀ site other name, program.names.get? site = some name →
    program.names.get? other = some name →
    ∃ declaration, program.declarationOf? site = some declaration ∧
      program.declarationOf? other = some declaration

/-- A spelling with a number `n` after it is declared as well, and its `i`-th variable is called as
the `j`-th variable of the spelling itself: `i` is one and not written, and `j` is `n`, or the
digits of `j` are those of `n` and `i`. -/
def Clash (program : Program) : Prop :=
  ∃ spelling n i j, 0 < n ∧ i ≤ program.times (spelling ++ toString n) ∧
    1 < j ∧ j ≤ program.times spelling ∧
    (i = 1 ∧ j = n ∨ 1 < i ∧ toString j = toString n ++ toString i)

theorem count_binder (program : Program) (spelling : String) :
    program.binder.count program spelling = program.times spelling := by
  rw [times, ← List.countP_reverse, ← map_site_binder, List.countP_map]
  rfl

/-- Two variables with one name are the same, unless spellings clash. -/
theorem eq_of_name_eq (hclash : ¬ program.Clash) {var other : Variable}
    (hvar : var ∈ program.binder.declared) (hother : other ∈ program.binder.declared)
    (h : var.name program = other.name program) : var = other := by
  have hsound := program.sound_binder
  -- the first of two variables has the longer spelling
  have hlonger : ∀ {var other : Variable} {n : Nat}, var ∈ program.binder.declared →
      other ∈ program.binder.declared → var.name program = other.name program → 0 < n →
      program.text var.site ≠ program.text other.site ++ toString n := by
    intro var other n hvar hother h hn hspelling
    obtain ⟨hpos, hle⟩ := hsound.counts var hvar
    obtain ⟨hpos', hle'⟩ := hsound.counts other hother
    rw [count_binder] at hle hle'
    rw [Variable.name, Variable.name, hspelling, Resolver.nameOf_numbered_iff _ hpos hpos'] at h
    rw [hspelling] at hle
    exact hclash ⟨_, n, _, _, hn, hle, h.1, hle', h.2⟩
  rcases Resolver.nameOf_eq (hsound.counts var hvar).1 (hsound.counts other hother).1 h with
    ⟨hspelling, hcount⟩ | ⟨n, hn, hspelling | hspelling⟩
  · exact hsound.apart var hvar other hother hspelling hcount
  · exact absurd hspelling (hlonger hvar hother h hn)
  · exact absurd hspelling (hlonger hother hvar h.symm hn)

theorem tellsApart_of_not_clash (hroles : program.SingleRoles) (hclash : ¬ program.Clash) :
    program.TellsApart where
  declarations := by
    intro site hsite other hother h
    obtain ⟨var, hvar, rfl⟩ := exists_declared hsite
    obtain ⟨var', hvar', rfl⟩ := exists_declared hother
    rw [get?_names_site hroles hvar, get?_names_site hroles hvar', Option.some.injEq] at h
    rw [eq_of_name_eq hclash hvar hvar' h]
  occurrences := by
    intro site other name hsite hother
    obtain ⟨var, hvar, hfirst, hname⟩ := exists_of_get?_names hsite
    obtain ⟨var', hvar', hsecond, hname'⟩ := exists_of_get?_names hother
    cases eq_of_name_eq hclash hvar hvar' (hname.trans hname'.symm)
    exact ⟨var.site, hfirst, hsecond⟩

/-- If spellings clash, two declarations have one name. -/
theorem not_clash_of_tellsApart (hroles : program.SingleRoles) (happart : program.TellsApart) :
    ¬ program.Clash := by
  rintro ⟨spelling, n, i, j, hn, hi, hj, hj', hrun⟩
  have hpos : 0 < i := by
    rcases hrun with ⟨rfl, -⟩ | ⟨hlt, -⟩ <;> omega
  -- the variables with these numbers were declared
  rw [← count_binder] at hi hj'
  obtain ⟨var, hvar, hspelling, rfl⟩ := program.sound_binder.filled _ i hpos hi
  obtain ⟨other, hother, rfl, rfl⟩ := program.sound_binder.filled _ j (by omega) hj'
  have hname : var.name program = other.name program := by
    rw [Variable.name, Variable.name, hspelling, Resolver.nameOf_numbered_iff _ hpos (by omega)]
    exact ⟨hj, hrun⟩
  have hsame : var.site = other.site := by
    refine happart.declarations _ (mem_declarations_of_declared hvar) _
      (mem_declarations_of_declared hother) ?_
    rw [get?_names_site hroles hvar, get?_names_site hroles hother, hname]
  rw [hsame] at hspelling
  exact Text.append_ne_self _ (Text.length_numeral_pos n) hspelling.symm

/-- Every declaration has a name and belongs to itself; and names tell variables apart exactly if
no spellings clash. -/
theorem tellsApart_iff (hroles : program.SingleRoles) :
    (∀ site ∈ program.declarations, (program.names.get? site).isSome ∧
      program.declarationOf? site = some site) ∧
    (program.TellsApart ↔ ¬ program.Clash) := by
  refine ⟨?_, not_clash_of_tellsApart hroles, tellsApart_of_not_clash hroles⟩
  intro site hsite
  obtain ⟨var, hvar, rfl⟩ := exists_declared hsite
  rw [get?_names_site hroles hvar, declarationOf?, owner?_site hroles hvar]
  exact ⟨rfl, rfl⟩

/-! ## A clash -/

/-- In the block, the second variable `x` and the variable `x2`. -/
def confusingTree : Node :=
  sampleNode (.other "program") 0 48 []
    [sampleNode .lexicalDeclaration 0 10 []
      [sampleNode .variableDeclarator 4 9 []
        [sampleNode .identifier 4 5 [.name] [],
          sampleNode (.other "number") 8 9 [.value] []]],
      sampleNode .statementBlock 11 48 []
        [sampleNode .lexicalDeclaration 13 23 []
          [sampleNode .variableDeclarator 17 22 []
            [sampleNode .identifier 17 18 [.name] [],
              sampleNode (.other "number") 21 22 [.value] []]],
          sampleNode .lexicalDeclaration 24 35 []
            [sampleNode .variableDeclarator 28 34 []
              [sampleNode .identifier 28 30 [.name] [],
                sampleNode (.other "number") 33 34 [.value] []]],
          sampleNode .lexicalDeclaration 36 46 []
            [sampleNode .variableDeclarator 40 45 []
              [sampleNode .identifier 40 41 [.name] [],
                sampleNode .identifier 44 45 [.value] []]]]]

/-- A program with two variables of one name. -/
def confusing : Program :=
  ⟨"let x = 1; { let x = 2; let x2 = 3; let y = x; }", .javascript, confusingTree.number 0,
    confusingTree.nodup_ids_number 0⟩

/-- Two declarations of the program have the same name. -/
theorem names_collide : ∃ site ∈ confusing.declarations, ∃ other ∈ confusing.declarations,
    site ≠ other ∧ confusing.names.get? site = some "x2" ∧
      confusing.names.get? other = some "x2" := by
  decide +kernel

theorem tellsApart_iff_confusing : confusing.SingleRoles ∧ confusing.Clash ∧
    ¬ confusing.TellsApart := by
  have hroles : confusing.SingleRoles := by decide
  have hclash : confusing.Clash :=
    ⟨"x", 2, 1, 2, by decide, by decide +kernel, by decide, by decide +kernel, .inl ⟨rfl, rfl⟩⟩
  exact ⟨hroles, hclash, fun happart => (tellsApart_iff hroles).2.mp happart hclash⟩

end Program

end DefUse
