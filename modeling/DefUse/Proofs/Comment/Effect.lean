/-
# `Proofs.Comment.Effect` — comments do nothing

Leaving comments out does not change what is read (`reads_uncommented`), written
(`Assignment.ofNode?_uncommented`) or done (`effects_uncommented`).

The last one is not an equation between lists of effects.  In a comma expression every
named child is a part, and a comment is a part that reads nothing and writes nothing; the
effects differ by such parts, and their actions are the same.
-/
import Mathlib.Data.List.Forall2
import DefUse.Proofs.Comment.Tree
import DefUse.Proofs.Dependency.Action

namespace DefUse

open DefUse.Tree
open DefUse.Tree.Node

/-! ## Computations that end alike -/

/-- Both succeed, with related results, or both fail for the same reason. -/
inductive SameEnd {ε α β : Type} (R : α → β → Prop) : Except ε α → Except ε β → Prop
  | ok {a : α} {b : β} : R a b → SameEnd R (.ok a) (.ok b)
  | error (e : ε) : SameEnd R (.error e) (.error e)

namespace SameEnd

variable {ε α β γ δ : Type} {R : α → β → Prop} {x : Except ε α} {y : Except ε β}

theorem of_eq {x y : Except ε α} {R : α → α → Prop} (hrefl : ∀ a, R a a) (h : x = y) :
    SameEnd R x y := by
  subst h
  cases x with
  | error e => exact .error e
  | ok a => exact .ok (hrefl a)

theorem bind {S : γ → δ → Prop} (h : SameEnd R x y) {f : α → Except ε γ} {g : β → Except ε δ}
    (hfg : ∀ a b, R a b → SameEnd S (f a) (g b)) : SameEnd S (x >>= f) (y >>= g) := by
  cases h with
  | ok hab => exact hfg _ _ hab
  | error e => exact .error e

/-- One of the two may go on after the other is done. -/
theorem bind_right {S : α → δ → Prop} (h : SameEnd R x y) {g : β → δ}
    (hg : ∀ a b, R a b → S a (g b)) : SameEnd S x (y >>= fun b => .ok (g b)) := by
  cases h with
  | ok hab => exact .ok (hg _ _ hab)
  | error e => exact .error e

theorem imp {R' : α → β → Prop} (h : SameEnd R x y) (himp : ∀ a b, R a b → R' a b) :
    SameEnd R' x y := by
  cases h with
  | ok hab => exact .ok (himp _ _ hab)
  | error e => exact .error e

/-- One after the other, up to the first that fails. -/
theorem mapM_map {S : γ → δ → Prop} {replace : β → α} {f : α → Except ε γ} {g : β → Except ε δ}
    {items : List β} (h : ∀ item ∈ items, SameEnd S (f (replace item)) (g item)) :
    SameEnd (List.Forall₂ S) ((items.map replace).mapM f) (items.mapM g) := by
  induction items with
  | nil => exact .ok .nil
  | cons item rest ih =>
      obtain ⟨hitem, hrest⟩ := List.forall_mem_cons.mp h
      rw [List.map_cons, List.mapM_cons, List.mapM_cons]
      exact hitem.bind fun _ _ hfirst => (ih hrest).bind fun _ _ hothers =>
        .ok (.cons hfirst hothers)

theorem eq_map (h : SameEnd R x y) {f : β → α} (hf : ∀ a b, R a b → a = f b) : x = y.map f := by
  cases h with
  | ok hab => exact congrArg Except.ok (hf _ _ hab)
  | error e => rfl

/-- What is made of related results may be equal. -/
theorem bind_eq (h : SameEnd R x y) {f : α → Except ε γ} {g : β → Except ε γ}
    (hfg : ∀ a b, R a b → f a = g b) : x >>= f = y >>= g := by
  cases h with
  | ok hab => exact hfg _ _ hab
  | error e => rfl

end SameEnd

/-! ## Reads -/

/-- Nothing is read in a comment. -/
theorem reads_of_isComment {node : Node} (hcomment : node.isComment = true)
    (hleaf : node.children = []) : reads node = .ok [] := by
  obtain ⟨name, hkind⟩ := kind_of_isComment hcomment
  obtain ⟨site, children⟩ := node
  rw [children_mk] at hleaf
  rw [kind, site_mk] at hkind
  rw [hleaf, reads, hkind]
  show readsNamed [] = .ok []
  rw [readsNamed]

mutual

theorem reads_uncommented : ∀ node : Node, BareComments node.nodes →
    reads node.uncommented = reads node
  | .mk site children, h => by
      have hbelow : BareComments (nodesAll children) := h.below
      rw [uncommented, reads, reads]
      generalize site.kind = kind
      split
      all_goals try rfl
      · exact readsField_uncommentedAll .object children hbelow
      · simp only [readsNamed_uncommentedAll children hbelow]

theorem readsField_uncommentedAll (field : Field) : ∀ nodes : List Node,
    BareComments (nodesAll nodes) → readsField field (uncommentedAll nodes) = readsField field nodes
  | [], _ => by rw [uncommentedAll]
  | child :: rest, h => by
      have hrest : BareComments (nodesAll rest) := h.rest
      rw [uncommentedAll]
      split
      · rename_i hcomment
        rw [readsField, h.carries List.mem_cons_self hcomment]
        exact readsField_uncommentedAll field rest hrest
      · rw [readsField, readsField, carries_uncommented,
          reads_uncommented child h.first,
          readsField_uncommentedAll field rest hrest]

theorem readsNamed_uncommentedAll : ∀ nodes : List Node, BareComments (nodesAll nodes) →
    readsNamed (uncommentedAll nodes) = readsNamed nodes
  | [], _ => by rw [uncommentedAll]
  | child :: rest, h => by
      have hrest : BareComments (nodesAll rest) := h.rest
      rw [uncommentedAll]
      split
      · rename_i hcomment
        have hleaf := h.leaf List.mem_cons_self hcomment
        rw [readsNamed_uncommentedAll rest hrest, readsNamed, reads_of_isComment hcomment hleaf]
        cases readsNamed rest <;> simp
      · rw [readsNamed, readsNamed, isNamed_uncommented,
          reads_uncommented child h.first,
          readsNamed_uncommentedAll rest hrest]

end

section Parts

variable {node : Node}

theorem readsOf?_field?_uncommented (h : BareComments node.nodes) (field : Field) :
    readsOf? (node.uncommented.field? field) = readsOf? (node.field? field) := by
  rw [field?_uncommented h.below]
  cases hpart : node.field? field with
  | none => rfl
  | some part => exact reads_uncommented part (h.field? hpart)

theorem readsOf?_uncommented {part : Option Node} (h : ∀ node ∈ part, BareComments node.nodes) :
    readsOf? (part.map uncommented) = readsOf? part := by
  cases part with
  | none => rfl
  | some node => exact reads_uncommented node (h node rfl)

/-! ## Writes -/

namespace Assignment

theorem target?_uncommented (h : BareComments (nodesAll node.children)) :
    target? node.uncommented = (target? node).map (Prod.map id uncommented) := by
  have hinside : ∀ (kind : WriteKind) (part : Option Node),
      (part.map uncommented).map (fun target => (kind, target.unparenthesized)) =
        (part.map fun target => (kind, target.unparenthesized)).map (Prod.map id uncommented) := by
    intro kind part
    cases part with
    | none => rfl
    | some target =>
        exact congrArg (fun inside => some (kind, inside)) (unparenthesized_uncommented target)
  rw [target?, target?, kind_uncommented]
  simp only [field?_uncommented h]
  generalize node.kind = kind
  split
  · cases node.field? .value <;> cases node.field? .name <;> rfl
  · exact hinside .simple _
  · exact hinside .compound _
  · exact hinside .update _
  · rfl

/-- The target of a write is no comment. -/
theorem ofNode?_uncommented (h : BareComments (nodesAll node.children)) :
    ofNode? node.uncommented = ofNode? node := by
  rw [ofNode?, ofNode?, target?_uncommented h, site_uncommented]
  cases target? node with
  | none => rfl
  | some found =>
      obtain ⟨kind, target⟩ := found
      simp only [Option.map_some, Prod.map_apply, id_eq, kind_uncommented, site_uncommented]

end Assignment

/-! ## Effects -/

namespace Effect

theorem ofDeclarator_uncommented (h : BareComments node.nodes) :
    ofDeclarator node.uncommented = ofDeclarator node := by
  have hname : ((node.field? .name).map uncommented).any (fun name => name.kind ≠ .identifier) =
      (node.field? .name).any fun name => name.kind ≠ .identifier := by
    cases node.field? .name <;> simp
  rw [ofDeclarator, ofDeclarator, readsOf?_field?_uncommented h, field?_uncommented h.below, hname,
    Assignment.ofNode?_uncommented h.below, unsupportedAt, line_uncommented]
  rfl

theorem readsOfTarget_uncommented (h : BareComments node.nodes) :
    readsOfTarget node.uncommented = readsOfTarget node := by
  rw [readsOfTarget, readsOfTarget, field?_uncommented h.below]
  cases hleft : node.field? .left with
  | none => rfl
  | some left =>
      have hbare : BareComments left.unparenthesized.nodes :=
        (h.field? hleft).mono (unparenthesized_sublist left).subset
      simp only [Option.map_some, unparenthesized_uncommented, kind_uncommented, unsupportedAt,
        line_uncommented, reads_uncommented _ hbare]

theorem ofAssignment_uncommented (h : BareComments node.nodes) :
    ofAssignment node.uncommented = ofAssignment node := by
  rw [ofAssignment, ofAssignment, readsOf?_field?_uncommented h, readsOfTarget_uncommented h,
    Assignment.ofNode?_uncommented h.below]

theorem ofCompound_uncommented (h : BareComments node.nodes) :
    ofCompound node.uncommented = ofCompound node := by
  rw [ofCompound, ofCompound, readsOf?_field?_uncommented h, readsOf?_field?_uncommented h,
    Assignment.ofNode?_uncommented h.below]

theorem ofUpdate_uncommented (h : BareComments node.nodes) :
    ofUpdate node.uncommented = ofUpdate node := by
  rw [ofUpdate, ofUpdate, readsOf?_field?_uncommented h, Assignment.ofNode?_uncommented h.below]

theorem ofReads_uncommented (h : BareComments node.nodes) :
    ofReads node.uncommented = ofReads node := by
  rw [ofReads, ofReads, reads_uncommented node h]

end Effect

/-- Effects that read and write the same in the same order. -/
def SameActions (steps others : List Effect) : Prop :=
  steps.flatMap Effect.actions = others.flatMap Effect.actions

theorem SameActions.append {steps others steps' others' : List Effect}
    (h : SameActions steps others) (h' : SameActions steps' others') :
    SameActions (steps ++ steps') (others ++ others') := by
  rw [SameActions, List.flatMap_append, h, h', List.flatMap_append]

theorem expressionEffectsNamed_cons (child : Node) (rest : List Node) :
    expressionEffectsNamed (child :: rest) =
      if child.isNamed then do
        let first ← expressionEffects child
        let others ← expressionEffectsNamed rest
        return first ++ others
      else expressionEffectsNamed rest := by
  rw [expressionEffectsNamed]
  cases expressionEffects child <;> cases expressionEffectsNamed rest <;> rfl

/-- A comment has an effect that does nothing. -/
theorem expressionEffects_of_isComment (hcomment : node.isComment = true)
    (hleaf : node.children = []) : expressionEffects node = .ok [⟨[], none⟩] := by
  have hreads := reads_of_isComment hcomment hleaf
  obtain ⟨name, hkind⟩ := kind_of_isComment hcomment
  obtain ⟨site, children⟩ := node
  rw [kind, site_mk] at hkind
  rw [expressionEffects, hkind, Effect.ofReads, hreads]
  rfl

mutual

/-- An expression does the same without its comments. -/
theorem expressionEffects_uncommented : ∀ node : Node, BareComments node.nodes →
    SameEnd SameActions (expressionEffects node.uncommented) (expressionEffects node)
  | .mk site children, h => by
      have hbelow : BareComments (nodesAll children) := h.below
      have hroot : Node.mk site (uncommentedAll children) = (Node.mk site children).uncommented :=
        rfl
      rw [uncommented, expressionEffects, expressionEffects, hroot]
      simp only [Effect.ofReads_uncommented h, Effect.ofAssignment_uncommented h,
        Effect.ofCompound_uncommented h, Effect.ofUpdate_uncommented h]
      generalize site.kind = kind
      split
      · exact expressionEffectsFirst_uncommentedAll _ children hbelow
      · exact expressionEffectsNamed_uncommentedAll children hbelow
      all_goals exact .of_eq (fun _ => rfl) rfl

theorem expressionEffectsFirst_uncommentedAll (otherwise : Except AnalysisError (List Effect)) :
    ∀ nodes : List Node, BareComments (nodesAll nodes) →
      SameEnd SameActions ((expressionEffectsFirst (uncommentedAll nodes)).getD otherwise)
        ((expressionEffectsFirst nodes).getD otherwise)
  | [], _ => by
      rw [uncommentedAll]
      exact .of_eq (fun _ => rfl) rfl
  | child :: rest, h => by
      have ih := expressionEffectsFirst_uncommentedAll otherwise rest
        h.rest
      rw [uncommentedAll]
      split
      · rename_i hcomment
        rw [expressionEffectsFirst, isContent_of_isComment hcomment]
        exact ih
      · rw [expressionEffectsFirst, expressionEffectsFirst, isContent_uncommented]
        split
        · exact expressionEffects_uncommented child h.first
        · exact ih

theorem expressionEffectsNamed_uncommentedAll : ∀ nodes : List Node,
    BareComments (nodesAll nodes) →
      SameEnd SameActions (expressionEffectsNamed (uncommentedAll nodes))
        (expressionEffectsNamed nodes)
  | [], _ => by
      rw [uncommentedAll]
      exact .of_eq (fun _ => rfl) rfl
  | child :: rest, h => by
      have ih := expressionEffectsNamed_uncommentedAll rest h.rest
      rw [uncommentedAll]
      split
      · rename_i hcomment
        have hleaf := h.leaf List.mem_cons_self hcomment
        rw [expressionEffectsNamed_cons, expressionEffects_of_isComment hcomment hleaf]
        split
        · exact ih.bind_right fun _ _ hrest => hrest
        · exact ih
      · rw [expressionEffectsNamed_cons, expressionEffectsNamed_cons, isNamed_uncommented]
        split
        · have hchild := expressionEffects_uncommented child h.first
          exact hchild.bind fun _ _ hfirst => ih.bind fun _ _ hrest => .ok (hfirst.append hrest)
        · exact ih

end

/-! ## Simple statements -/

theorem declarators_uncommented (node : Node) :
    declarators node.uncommented = (declarators node).map uncommented := by
  rw [declarators, declarators, namedChildren, namedChildren, children_uncommented,
    List.filter_filter, List.filter_filter]
  refine filter_uncommentedAll ?_ ?_
  · intro child
    rw [kind_uncommented, isNamed_uncommented]
  · intro child _ hcomment
    rw [decide_eq_false (kind_ne_of_isComment hcomment rfl), Bool.false_and]

theorem bare_declarator (h : BareComments node.nodes) {declarator : Node}
    (hdeclarator : declarator ∈ declarators node) : BareComments declarator.nodes :=
  h.below.of_mem (List.mem_of_mem_filter (List.mem_of_mem_filter hdeclarator))

/-- A simple statement does the same without its comments. -/
theorem effects_uncommented (h : BareComments node.nodes) :
    SameEnd SameActions (effects node.uncommented) (effects node) := by
  have hdeclarators : SameEnd SameActions
      ((declarators node.uncommented).mapM Effect.ofDeclarator)
      ((declarators node).mapM Effect.ofDeclarator) := by
    rw [declarators_uncommented]
    refine (SameEnd.mapM_map (S := Eq) ?_).imp ?_
    · intro declarator hdeclarator
      exact .of_eq (fun _ => rfl)
        (Effect.ofDeclarator_uncommented (bare_declarator h hdeclarator))
    · intro steps others hsame
      rw [List.forall₂_eq_eq_eq] at hsame
      rw [hsame, SameActions]
  rw [effects, effects, kind_uncommented, firstNamed?_uncommented]
  generalize node.kind = kind
  split
  · exact hdeclarators
  · exact hdeclarators
  · cases hfirst : node.firstNamed? with
    | none => exact .of_eq (fun _ => rfl) rfl
    | some expression => exact expressionEffects_uncommented expression (h.firstNamed? hfirst)
  · exact .of_eq (fun _ => rfl) rfl
  · exact expressionEffects_uncommented node h

end Parts

end DefUse
