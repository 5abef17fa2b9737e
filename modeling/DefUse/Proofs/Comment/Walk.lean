/-
# `Proofs.Comment.Walk` — the walks step over comments

Two walks go through the whole tree and keep a scope on the way: the one that names
variables and the lexical one.  What they do is a list of steps that is read off the tree
(`Names.steps`, `LexicalWalk.moves`), and it is the same list without the comments.
-/
import DefUse.Proofs.Comment.Effect
import DefUse.Proofs.Dependency.Lexical
import DefUse.Proofs.Names.Walk

namespace DefUse

open DefUse.Tree
open DefUse.Tree.Node

variable {node : Node}

/-! ## Names -/

namespace Names

theorem steps_of_isComment (hcomment : node.isComment = true) (hleaf : node.children = []) :
    steps node = [] := by
  obtain ⟨name, hkind⟩ := kind_of_isComment hcomment
  obtain ⟨site, children⟩ := node
  rw [children_mk] at hleaf
  rw [kind, site_mk] at hkind
  rw [hleaf, steps, hkind]
  show stepsNamed [] = []
  rw [stepsNamed]

mutual

theorem steps_uncommented : ∀ node : Node, BareComments node.nodes →
    steps node.uncommented = steps node
  | .mk site children, h => by
      have hbelow : BareComments (nodesAll children) := h.below
      rw [uncommented, steps, steps, stepsNamed_uncommentedAll children hbelow,
        stepsDeclarators_uncommentedAll children hbelow]

theorem stepsNamed_uncommentedAll : ∀ nodes : List Node, BareComments (nodesAll nodes) →
    stepsNamed (uncommentedAll nodes) = stepsNamed nodes
  | [], _ => by rw [uncommentedAll]
  | child :: rest, h => by
      have ih := stepsNamed_uncommentedAll rest h.rest
      rw [uncommentedAll]
      split
      · rename_i hcomment
        have hleaf := h.leaf List.mem_cons_self hcomment
        rw [stepsNamed, steps_of_isComment hcomment hleaf, List.nil_append, ite_self, ih]
      · rw [stepsNamed, stepsNamed, isNamed_uncommented,
          steps_uncommented child h.first, ih]

theorem stepsDeclarators_uncommentedAll : ∀ nodes : List Node, BareComments (nodesAll nodes) →
    stepsDeclarators (uncommentedAll nodes) = stepsDeclarators nodes
  | [], _ => by rw [uncommentedAll]
  | child :: rest, h => by
      have ih := stepsDeclarators_uncommentedAll rest h.rest
      rw [uncommentedAll]
      split
      · rename_i hcomment
        rw [stepsDeclarators, decide_eq_false (kind_ne_of_isComment hcomment rfl), Bool.and_false]
        exact ih
      · rw [stepsDeclarators, stepsDeclarators, isNamed_uncommented, kind_uncommented,
          stepsDeclarator_uncommented child h.first, ih]

theorem stepsDeclarator_uncommented : ∀ node : Node, BareComments node.nodes →
    stepsDeclarator node.uncommented = stepsDeclarator node
  | .mk site children, h => by
      rw [uncommented, stepsDeclarator, stepsDeclarator, stepsValue_uncommentedAll children h.below,
        stepsDeclared_uncommentedAll children h.below]

theorem stepsValue_uncommentedAll : ∀ nodes : List Node, BareComments (nodesAll nodes) →
    stepsValue (uncommentedAll nodes) = stepsValue nodes
  | [], _ => by rw [uncommentedAll]
  | child :: rest, h => by
      have ih := stepsValue_uncommentedAll rest h.rest
      rw [uncommentedAll]
      split
      · rename_i hcomment
        rw [stepsValue, h.carries List.mem_cons_self hcomment]
        exact ih
      · rw [stepsValue, stepsValue, carries_uncommented,
          steps_uncommented child h.first, ih]

theorem stepsDeclared_uncommentedAll : ∀ nodes : List Node, BareComments (nodesAll nodes) →
    stepsDeclared (uncommentedAll nodes) = stepsDeclared nodes
  | [], _ => by rw [uncommentedAll]
  | child :: rest, h => by
      have ih := stepsDeclared_uncommentedAll rest h.rest
      rw [uncommentedAll]
      split
      · rename_i hcomment
        rw [stepsDeclared, h.carries List.mem_cons_self hcomment]
        exact ih
      · rw [stepsDeclared, stepsDeclared, carries_uncommented, kind_uncommented, site_uncommented,
          steps_uncommented child h.first, ih]

end

end Names

namespace Resolver

theorem parameter?_uncommented (h : BareComments node.nodes) :
    parameter? node.uncommented = (parameter? node).map uncommented := by
  have hplain : ∀ part : Option Node,
      (part.map uncommented).filter (fun part => part.kind = .identifier) =
        (part.filter fun part => part.kind = .identifier).map uncommented :=
    filter_map_uncommented fun part => by rw [kind_uncommented]
  rw [parameter?, parameter?, kind_uncommented, field?_uncommented h.below,
    field?_uncommented h.below, hplain, hplain]
  generalize node.kind = kind
  split <;> rfl

theorem parameter?_of_isComment (hcomment : node.isComment = true) : parameter? node = none := by
  obtain ⟨name, hkind⟩ := kind_of_isComment hcomment
  rw [parameter?, hkind]

/-- The parameters of a function are no comments. -/
theorem parameters_uncommented (h : BareComments node.nodes) :
    node.uncommented.namedChildren.filterMap parameter? =
      (node.namedChildren.filterMap parameter?).map uncommented := by
  rw [namedChildren_uncommented, List.filterMap_map, List.filterMap_filter, List.map_filterMap]
  refine List.filterMap_congr ?_
  intro child hchild
  cases hcomment : child.isComment with
  | true => rw [parameter?_of_isComment hcomment]; rfl
  | false => exact parameter?_uncommented (h.below.of_mem (List.mem_of_mem_filter hchild))

end Resolver

/-! ## Lexical moves -/

namespace LexicalWalk

theorem moves_of_isComment (hcomment : node.isComment = true) : moves node = .none := by
  obtain ⟨name, hkind⟩ := kind_of_isComment hcomment
  obtain ⟨site, children⟩ := node
  rw [kind, site_mk] at hkind
  rw [moves, hkind]

theorem simpleMoves_uncommented (h : BareComments node.nodes) :
    simpleMoves node.uncommented = simpleMoves node := by
  refine (effects_uncommented h).bind_eq ?_
  intro steps others hsame
  rw [hsame]

theorem uninitialized_uncommented (h : BareComments node.nodes) :
    uninitialized node.uncommented = (uninitialized node).map uncommented := by
  rw [uninitialized, uninitialized, declarators_uncommented, List.filter_map, List.filterMap_map,
    List.map_filterMap]
  have hfilter : (declarators node).filter
      ((fun declarator => (declarator.field? .value).isNone) ∘ uncommented) =
        (declarators node).filter fun declarator => (declarator.field? .value).isNone := by
    refine List.filter_congr ?_
    intro declarator hdeclarator
    rw [Function.comp_apply, field?_uncommented (bare_declarator h hdeclarator).below,
      Option.isNone_map]
  rw [hfilter]
  refine List.filterMap_congr ?_
  intro declarator hdeclarator
  exact field?_uncommented (bare_declarator h (List.mem_of_mem_filter hdeclarator)).below .name

theorem declarationMoves_uncommented (h : BareComments node.nodes) :
    declarationMoves node.uncommented = declarationMoves node := by
  rw [declarationMoves, declarationMoves, uninitialized_uncommented h, simpleMoves_uncommented h,
    List.map_map]
  simp only [Function.comp_def, site_uncommented]

section Part

variable {part : Option Node} (h : ∀ node ∈ part, BareComments node.nodes)

include h

theorem expressionMoves_uncommented :
    expressionMoves (part.map uncommented) = expressionMoves part := by
  rw [expressionMoves, expressionMoves, readsOf?_uncommented h]

theorem initializerMoves_uncommented :
    initializerMoves (part.map uncommented) = initializerMoves part := by
  cases part with
  | none => rfl
  | some node =>
      rw [Option.map_some, initializerMoves, initializerMoves, isDeclaration, kind_uncommented,
        declarationMoves_uncommented (h node rfl), simpleMoves_uncommented (h node rfl)]
      rfl

theorem incrementMoves_uncommented :
    incrementMoves (part.map uncommented) = incrementMoves part := by
  cases part with
  | none => rfl
  | some node => exact simpleMoves_uncommented (h node rfl)

end Part

mutual

theorem moves_uncommented : ∀ node : Node, BareComments node.nodes →
    moves node.uncommented = moves node
  | .mk site children, h => by
      have hbelow : BareComments (nodesAll children) := h.below
      have hroot : Node.mk site (uncommentedAll children) = (Node.mk site children).uncommented :=
        rfl
      obtain ⟨hinitializer, hcondition, hincrement⟩ := ForClauses.bare_ofNode h
      have htest : ∀ part ∈ (Node.mk site children).field? .condition, BareComments part.nodes :=
        fun _ hpart => h.field? hpart
      have hvalue : ∀ part ∈ (Node.mk site children).firstNamed?, BareComments part.nodes :=
        fun _ hpart => h.firstNamed? hpart
      rw [uncommented, moves, moves, hroot, field?_uncommented h.below, firstNamed?_uncommented,
        ForClauses.ofNode_uncommented h.below, declarationMoves_uncommented h,
        simpleMoves_uncommented h, expressionMoves_uncommented htest,
        expressionMoves_uncommented hvalue, movesNamed_uncommentedAll children hbelow,
        movesField_uncommentedAll .body children hbelow,
        movesField_uncommentedAll .consequence children hbelow,
        movesElse_uncommentedAll children hbelow]
      simp only [ForClauses.uncommented, initializerMoves_uncommented hinitializer,
        expressionMoves_uncommented hcondition, incrementMoves_uncommented hincrement]

theorem movesNamed_uncommentedAll : ∀ nodes : List Node, BareComments (nodesAll nodes) →
    movesNamed (uncommentedAll nodes) = movesNamed nodes
  | [], _ => by rw [uncommentedAll]
  | child :: rest, h => by
      have ih := movesNamed_uncommentedAll rest h.rest
      rw [uncommentedAll]
      split
      · rename_i hcomment
        rw [movesNamed, moves_of_isComment hcomment, ih]
        split
        · cases movesNamed rest <;> rfl
        · rfl
      · rw [movesNamed, movesNamed, isNamed_uncommented,
          moves_uncommented child h.first, ih]

theorem movesField_uncommentedAll (field : Field) : ∀ nodes : List Node,
    BareComments (nodesAll nodes) → movesField field (uncommentedAll nodes) = movesField field nodes
  | [], _ => by rw [uncommentedAll]
  | child :: rest, h => by
      have ih := movesField_uncommentedAll field rest h.rest
      rw [uncommentedAll]
      split
      · rename_i hcomment
        rw [movesField, h.carries List.mem_cons_self hcomment]
        exact ih
      · rw [movesField, movesField, carries_uncommented,
          moves_uncommented child h.first, ih]

theorem movesElse_uncommentedAll : ∀ nodes : List Node, BareComments (nodesAll nodes) →
    movesElse (uncommentedAll nodes) = movesElse nodes
  | [], _ => by rw [uncommentedAll]
  | child :: rest, h => by
      have ih := movesElse_uncommentedAll rest h.rest
      rw [uncommentedAll]
      split
      · rename_i hcomment
        rw [movesElse, h.carries List.mem_cons_self hcomment]
        exact ih
      · rw [movesElse, movesElse, carries_uncommented, kind_uncommented,
          movesClause_uncommented child h.first,
          moves_uncommented child h.first, ih]

theorem movesClause_uncommented : ∀ node : Node, BareComments node.nodes →
    movesClause node.uncommented = movesClause node
  | .mk site children, h => by
      rw [uncommented, movesClause, movesClause, movesFirst_uncommentedAll children h.below]

theorem movesFirst_uncommentedAll : ∀ nodes : List Node, BareComments (nodesAll nodes) →
    movesFirst (uncommentedAll nodes) = movesFirst nodes
  | [], _ => by rw [uncommentedAll]
  | child :: rest, h => by
      have ih := movesFirst_uncommentedAll rest h.rest
      rw [uncommentedAll]
      split
      · rename_i hcomment
        rw [movesFirst, isContent_of_isComment hcomment]
        exact ih
      · rw [movesFirst, movesFirst, isContent_uncommented,
          moves_uncommented child h.first, ih]

end

end LexicalWalk

end DefUse
