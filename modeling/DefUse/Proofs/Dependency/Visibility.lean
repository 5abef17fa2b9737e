/-
# `Proofs.Dependency.Visibility` — which assignments find a variable

The lexical walk and the renaming walk do not agree on the variables in scope in two
cases.  The parameters of a function are in scope for the renaming walk only.  And a
variable that is declared by the bare body of a `for` is in scope for the increment in the
lexical walk only, which comes to the increment last (`Program.visibility_differs`).

These are the only ones (`Program.skips_iff_unseen`): if no `for` has such a body, then an
assignment is passed over by the lexical walk if and only if it has no name, or that of a
parameter.  The proof goes through the tree statement by statement (`covers_moves`); that
both walks come to the same parts in the same order is what the grammar is needed for.
-/
import DefUse.Proofs.Dependency.Agreement
import DefUse.Proofs.Graph.Build

namespace DefUse

open DefUse.Tree
open DefUse.Names

/-- What is asked of a node: it is as the grammar has it, and it is no `for` whose body declares a
variable for the increment. -/
structure Orderly (node : Node) : Prop where
  named : node.RoleNamed
  regular : node.Regular
  closed : node.ClosedBody

namespace LexicalWalk

variable {program : Program}

/-! ## The parts of a statement -/

variable (program) in
/-- A part that may be absent. -/
def CoversPart (found : List Move) : Option Node → Prop
  | some child => Covers program found (Names.steps child)
  | none => found = []

/-- Comments between the parts change nothing. -/
theorem covers_contents {nodes : List Node} (hregular : ∀ child ∈ nodes, child.Regular)
    {contents : List Node} (hcontents : nodes.filter Node.isContent = contents)
    {parts : List (List Move)} (h : List.Forall₂
      (fun found child => Covers program found (Names.steps child)) parts contents) :
    Covers program parts.flatten (stepsNamed nodes) := by
  subst hcontents
  induction nodes generalizing parts with
  | nil =>
      cases h
      rw [stepsNamed]
      exact covers_of_keeps keeps_nil
  | cons child rest ih =>
      obtain ⟨hchild, hrest⟩ := List.forall_mem_cons.mp hregular
      rw [List.filter_cons] at h
      rw [stepsNamed]
      split at h
      · rename_i hcontent
        rw [if_pos (isNamed_of_isContent hcontent)]
        cases h with
        | cons hfirst hothers => exact hfirst.append (ih hrest hothers)
      · rename_i hcontent
        split
        · rename_i hnamed
          have hnone := hchild.declares_comment hnamed (Bool.not_eq_true _ ▸ hcontent)
          exact (covers_of_keeps (keeps_steps child hnone)).append (ih hrest h)
        · exact ih hrest h

variable (program) in
/-- The parts of a node with certain roles, one after the other. -/
def CoversParts (node : Node) (parts : List (List Move)) (fields : List Field) : Prop :=
  List.Forall₂ (fun found field => CoversPart program found (node.field? field)) parts fields

theorem CoversParts.contents {node : Node} {parts : List (List Move)} {fields : List Field}
    (h : CoversParts program node parts fields) :
    ∃ present, present.flatten = parts.flatten ∧ List.Forall₂
      (fun found child => Covers program found (Names.steps child)) present
      (fields.filterMap (Node.field? · node)) := by
  induction h with
  | nil => exact ⟨[], rfl, .nil⟩
  | @cons found field parts fields hpart _ ih =>
      obtain ⟨present, hflatten, hpresent⟩ := ih
      rw [List.filterMap_cons]
      cases hfield : node.field? field with
      | none =>
          rw [hfield] at hpart
          cases hpart
          exact ⟨present, hflatten, hpresent⟩
      | some child =>
          rw [hfield] at hpart
          refine ⟨found :: present, ?_, .cons hpart hpresent⟩
          rw [List.flatten_cons, List.flatten_cons, hflatten]

/-- If the parts are all there is, besides comments, then they are what the renaming walk goes
through. -/
theorem CoversParts.covers {node : Node} {parts : List (List Move)} {fields : List Field}
    (h : CoversParts program node parts fields) {nodes : List Node}
    (hregular : ∀ child ∈ nodes, child.Regular)
    (hcontents : nodes.filter Node.isContent = fields.filterMap (Node.field? · node)) :
    Covers program parts.flatten (stepsNamed nodes) := by
  obtain ⟨present, hflatten, hpresent⟩ := h.contents
  rw [← hflatten]
  exact covers_contents hregular hcontents hpresent

/-- A structured statement is covered if its parts are. -/
theorem CoversParts.covers_steps {node : Node} {parts : List (List Move)} {fields : List Field}
    (h : CoversParts program node parts fields) (horderly : ∀ other ∈ node.nodes, Orderly other)
    (hgoes : goesOn node.kind = true) (hlayout : Node.layout? node.kind = some fields) :
    Covers program parts.flatten (Names.steps node) := by
  obtain ⟨site, children⟩ := node
  rw [steps_of_goesOn hgoes]
  exact h.covers (fun child hchild => (horderly child (Node.mem_nodes hchild)).regular)
    ((horderly _ (Node.mem_nodes_self _)).regular.inOrder fields hlayout)

theorem keeps_contents {nodes : List Node} (hregular : ∀ child ∈ nodes, child.Regular)
    (h : ∀ child ∈ nodes.filter Node.isContent, declares child = false) :
    Keeps program (stepsNamed nodes) := by
  refine keeps_stepsNamed nodes (declaresNamed_eq_false.mpr fun child hchild hnamed => ?_)
  cases hcontent : child.isContent with
  | true => exact h child (List.mem_filter.mpr ⟨hchild, hcontent⟩)
  | false => exact (hregular child hchild).declares_comment hnamed hcontent

theorem nodes_of_field? {node child : Node} {field : Field} (h : node.field? field = some child) :
    child.nodes ⊆ node.nodes :=
  Node.nodes_subset (List.mem_of_find?_eq_some h)

/-- A declaration of an orderly tree. -/
theorem covers_orderly (hroles : program.SingleRoles) {node : Node} {found : List Move}
    (horderly : ∀ other ∈ node.nodes, Orderly other) (hdeclaration : isDeclaration node = true)
    (h : declarationMoves node = .ok found) : Covers program found (Names.steps node) := by
  refine covers_declaration hroles hdeclaration h fun declarator hdeclarator => ?_
  have hchild := (mem_declarators hdeclarator).1
  exact (horderly declarator (Node.mem_nodes hchild)).regular

/-! ## The clauses of a `for` -/

section Clauses

variable (hroles : program.SingleRoles) {node : Node}
  (horderly : ∀ other ∈ node.nodes, Orderly other) {found : List Move}

include hroles horderly

/-- A condition that the walk only reads. -/
theorem coversPart_condition {clause : Option Node}
    (habsent : node.field? .condition = none → clause = none)
    (h : expressionMoves clause = .ok found) :
    CoversPart program found (node.field? .condition) := by
  have hregular := (horderly node node.mem_nodes_self).regular
  cases hchild : node.field? .condition with
  | none =>
      rw [habsent hchild] at h
      cases h
      rfl
  | some child =>
      exact covers_expression hroles (keeps_steps child (hregular.declares_field? rfl hchild)) h

theorem coversPart_increment (h : incrementMoves (ForClauses.ofNode node).increment = .ok found) :
    CoversPart program found (node.field? .increment) := by
  have hregular := (horderly node node.mem_nodes_self).regular
  rw [ForClauses.ofNode] at h
  cases hchild : node.field? .increment with
  | none =>
      rw [hchild] at h
      cases h
      rfl
  | some child =>
      have hnone := hregular.declares_field? rfl hchild
      rw [hchild, Option.filter_some] at h
      split at h
      · exact covers_simple hroles h hnone fun other hother =>
          (horderly other (nodes_of_field? hchild hother)).named
      · cases h
        exact covers_of_keeps (keeps_steps child hnone)

theorem coversPart_initializer
    (h : initializerMoves (ForClauses.ofNode node).initializer = .ok found) :
    CoversPart program found (node.field? .initializer) := by
  rw [ForClauses.ofNode] at h
  cases hchild : node.field? .initializer with
  | none =>
      rw [hchild] at h
      cases h
      rfl
  | some child =>
      have hbelow : ∀ other ∈ child.nodes, Orderly other :=
        fun other hother => horderly other (nodes_of_field? hchild hother)
      have hcarries : child.carries .initializer = true := List.find?_some hchild
      have hnone := (horderly node node.mem_nodes_self).regular.initializer child
        (List.mem_of_find?_eq_some hchild) hcarries
      rw [hchild, Option.filter_some] at h
      cases hdeclaration : isDeclaration child with
      | true =>
          have hpresent : ForClauses.present child = true := by
            have hnamed := (hbelow child child.mem_nodes_self).named
              (List.ne_nil_of_mem (List.contains_iff_mem.mp hcarries))
            rw [ForClauses.present, hnamed, Bool.true_and, decide_eq_true_eq]
            intro hkind
            rw [isDeclaration, hkind] at hdeclaration
            cases hdeclaration
          rw [if_pos hpresent, initializerMoves, if_pos hdeclaration] at h
          exact covers_orderly hroles hbelow hdeclaration h
      | false =>
          split at h
          · rw [initializerMoves, hdeclaration] at h
            exact covers_simple hroles h (hnone hdeclaration) fun other hother =>
              (hbelow other hother).named
          · cases h
            exact covers_of_keeps (keeps_steps child (hnone hdeclaration))

/-- The increment of a `for` is written before the body, and the walk comes to it after the
body. -/
theorem covers_for (hkind : node.kind = .forStatement) {ready tested inBody next : List Move}
    (hready : initializerMoves (ForClauses.ofNode node).initializer = .ok ready)
    (htested : expressionMoves (ForClauses.ofNode node).condition = .ok tested)
    (hbody : CoversPart program inBody (node.field? .body))
    (hnext : incrementMoves (ForClauses.ofNode node).increment = .ok next) :
    Covers program (ready ++ (tested ++ (inBody ++ next))) (stepsNamed node.children) := by
  have hself := horderly node node.mem_nodes_self
  have hregular : ∀ child ∈ node.children, child.Regular :=
    fun child hchild => (horderly child (Node.mem_nodes hchild)).regular
  have habsent : node.field? .condition = none → (ForClauses.ofNode node).condition = none := by
    intro hnone
    rw [ForClauses.ofNode, hnone]
    rfl
  -- the children that make up the head, the increment and the body
  have hcontents := hself.regular.inOrder _ (by rw [hkind]; rfl)
  have hfields : [Field.initializer, .condition, .increment, .body] =
      [.initializer, .condition] ++ ([.increment] ++ [.body]) := rfl
  rw [hfields, List.filterMap_append, List.filterMap_append, Node.contents,
    List.filter_eq_append_iff] at hcontents
  obtain ⟨head, tail, hchildren, hhead, htail⟩ := hcontents
  obtain ⟨increment, body, rfl, hincrement, hbodies⟩ := List.filter_eq_append_iff.mp htail
  rw [hchildren] at hregular
  simp only [List.mem_append, or_imp, forall_and] at hregular
  obtain ⟨hregularHead, hregularIncrement, hregularBody⟩ := hregular
  have hcoversHead : Covers program (ready ++ tested) (stepsNamed head) := by
    have hparts : CoversParts program node [ready, tested] [.initializer, .condition] :=
      .cons (coversPart_initializer hroles horderly hready)
        (.cons (coversPart_condition hroles horderly habsent htested) .nil)
    simpa using hparts.covers hregularHead hhead
  have hcoversIncrement : Covers program next (stepsNamed increment) := by
    have hparts : CoversParts program node [next] [.increment] :=
      .cons (coversPart_increment hroles horderly hnext) .nil
    simpa using hparts.covers hregularIncrement hincrement
  have hcoversBody : Covers program inBody (stepsNamed body) := by
    have hparts : CoversParts program node [inBody] [.body] := .cons hbody .nil
    simpa using hparts.covers hregularBody hbodies
  rw [hchildren, stepsNamed_append, stepsNamed_append, ← List.append_assoc]
  refine hcoversHead.append ?_
  cases hclause : (ForClauses.ofNode node).increment with
  | none =>
      rw [hclause] at hnext
      cases hnext
      rw [List.append_nil]
      exact hcoversIncrement.append hcoversBody
  | some clause =>
      refine hcoversIncrement.swap hcoversBody (keeps_contents hregularIncrement ?_)
        (keeps_contents hregularBody ?_)
      · intro child hchild
        rw [hincrement] at hchild
        obtain ⟨field, hfield, hpart⟩ := List.mem_filterMap.mp hchild
        cases List.mem_singleton.mp hfield
        exact hself.regular.declares_field? rfl hpart
      · intro child hchild
        rw [hbodies] at hchild
        obtain ⟨field, hfield, hpart⟩ := List.mem_filterMap.mp hchild
        cases List.mem_singleton.mp hfield
        exact hself.closed hkind (by rw [hclause]; rfl) child hpart

end Clauses

/-! ## Statements -/

mutual

/-- The walk is right about all assignments in a statement. -/
theorem covers_moves (hroles : program.SingleRoles) : ∀ (node : Node) {found : List Move},
    (∀ other ∈ node.nodes, Orderly other) → moves node = .ok found →
      Covers program found (Names.steps node)
  | .mk site children, found, horderly, hmoves => by
      have hbelow : ∀ other ∈ Node.nodesAll children, Orderly other :=
        fun other hother => horderly other (List.mem_cons_of_mem _ hother)
      have hnamed : ∀ other ∈ (Node.mk site children).nodes, other.RoleNamed :=
        fun other hother => (horderly other hother).named
      have hleaf : ∀ {kind : Kind}, site.kind = kind → Node.isLeaf kind = true →
          declares (.mk site children) = false := by
        rintro _ rfl hleaf
        exact (horderly _ (Node.mem_nodes_self _)).regular.leaf hleaf
      rw [moves] at hmoves
      split at hmoves
      · rename_i hkind
        obtain ⟨within, hwithin, rfl⟩ := Moves.framed_eq_ok.mp hmoves
        rw [Names.steps, hkind]
        exact covers_push.append
          ((covers_movesNamed hroles children hbelow hwithin).append covers_pop)
      · rename_i hkind
        exact covers_orderly hroles horderly (by simp [isDeclaration, Node.kind, hkind]) hmoves
      · rename_i hkind
        exact covers_orderly hroles horderly (by simp [isDeclaration, Node.kind, hkind]) hmoves
      · rename_i hkind
        exact covers_simple hroles hmoves (hleaf hkind rfl) hnamed
      -- `if`
      · rename_i hkind
        have hkind' : (Node.mk site children).kind = .ifStatement := hkind
        obtain ⟨tested, arms, htested, harms, rfl⟩ := Moves.andThen_eq_ok.mp hmoves
        obtain ⟨inThen, inElse, hthen, helse, rfl⟩ := Moves.andThen_eq_ok.mp harms
        have hparts : CoversParts program (.mk site children) [tested, inThen, inElse]
            [.condition, .consequence, .alternative] :=
          .cons (coversPart_condition hroles horderly id htested)
            (.cons (coversPart_movesField hroles .consequence children hbelow hthen)
              (.cons (coversPart_movesElse hroles children hbelow helse) .nil))
        have hcovers := hparts.covers_steps horderly (by rw [hkind']; rfl) (by rw [hkind']; rfl)
        simpa using hcovers
      -- the loops
      · rename_i hkind
        have hkind' : (Node.mk site children).kind = .whileStatement := hkind
        obtain ⟨tested, inBody, htested, hbody, rfl⟩ := Moves.andThen_eq_ok.mp hmoves
        have hparts : CoversParts program (.mk site children) [tested, inBody]
            [.condition, .body] :=
          .cons (coversPart_condition hroles horderly id htested)
            (.cons (coversPart_movesField hroles .body children hbelow hbody) .nil)
        have hcovers := hparts.covers_steps horderly (by rw [hkind']; rfl) (by rw [hkind']; rfl)
        simpa using hcovers
      · rename_i hkind
        have hkind' : (Node.mk site children).kind = .doStatement := hkind
        obtain ⟨inBody, tested, hbody, htested, rfl⟩ := Moves.andThen_eq_ok.mp hmoves
        have hparts : CoversParts program (.mk site children) [inBody, tested]
            [.body, .condition] :=
          .cons (coversPart_movesField hroles .body children hbelow hbody)
            (.cons (coversPart_condition hroles horderly id htested) .nil)
        have hcovers := hparts.covers_steps horderly (by rw [hkind']; rfl) (by rw [hkind']; rfl)
        simpa using hcovers
      · rename_i hkind
        obtain ⟨within, hwithin, rfl⟩ := Moves.framed_eq_ok.mp hmoves
        obtain ⟨ready, round, hready, hround, rfl⟩ := Moves.andThen_eq_ok.mp hwithin
        obtain ⟨tested, done, htested, hdone, rfl⟩ := Moves.andThen_eq_ok.mp hround
        obtain ⟨inBody, next, hbody, hnext, rfl⟩ := Moves.andThen_eq_ok.mp hdone
        have hcovers := covers_for hroles horderly hkind hready htested
          (coversPart_movesField hroles .body children hbelow hbody) hnext
        rw [Names.steps, hkind]
        exact covers_push.append (hcovers.append covers_pop)
      -- jumps and `return`
      · rename_i hkind
        exact covers_expression hroles (keeps_steps _ (hleaf hkind rfl)) hmoves
      · rename_i hkind
        cases hmoves
        exact covers_of_keeps (keeps_steps _ (hleaf hkind rfl))
      · rename_i hkind
        cases hmoves
        exact covers_of_keeps (keeps_steps _ (hleaf hkind rfl))
      · rename_i hkind
        cases hmoves
        exact covers_of_keeps (keeps_steps _ (hleaf hkind rfl))
      · rename_i hkind
        cases hmoves
        exact covers_of_keeps (keeps_steps _ (hleaf hkind rfl))
      · rename_i hkind
        cases hmoves
        exact covers_of_keeps (keeps_steps _ (hleaf hkind rfl))
      · cases hmoves

theorem covers_movesNamed (hroles : program.SingleRoles) : ∀ (nodes : List Node)
    {found : List Move}, (∀ other ∈ Node.nodesAll nodes, Orderly other) →
      movesNamed nodes = .ok found → Covers program found (stepsNamed nodes)
  | [], found, _, hmoves => by
      cases hmoves
      rw [stepsNamed]
      exact covers_of_keeps keeps_nil
  | child :: rest, found, horderly, hmoves => by
      rw [Node.nodesAll] at horderly
      have hrest : ∀ other ∈ Node.nodesAll rest, Orderly other :=
        fun other hother => horderly other (List.mem_append_right _ hother)
      rw [movesNamed] at hmoves
      rw [stepsNamed]
      split at hmoves
      · rename_i hnamed
        rw [if_pos hnamed]
        obtain ⟨before, after, hbefore, hafter, rfl⟩ := Moves.andThen_eq_ok.mp hmoves
        exact (covers_moves hroles child (fun other hother =>
          horderly other (List.mem_append_left _ hother)) hbefore).append
            (covers_movesNamed hroles rest hrest hafter)
      · rename_i hnamed
        rw [if_neg hnamed]
        exact covers_movesNamed hroles rest hrest hmoves

theorem coversPart_movesField (hroles : program.SingleRoles) (field : Field) :
    ∀ (nodes : List Node) {found : List Move}, (∀ other ∈ Node.nodesAll nodes, Orderly other) →
      movesField field nodes = .ok found →
        CoversPart program found (nodes.find? (Node.carries field))
  | [], found, _, hmoves => by
      cases hmoves
      rfl
  | child :: rest, found, horderly, hmoves => by
      rw [Node.nodesAll] at horderly
      rw [movesField] at hmoves
      rw [List.find?_cons]
      split at hmoves
      · rename_i hcarries
        rw [hcarries]
        exact covers_moves hroles child (fun other hother =>
          horderly other (List.mem_append_left _ hother)) hmoves
      · rename_i hcarries
        rw [eq_false_of_ne_true hcarries]
        exact coversPart_movesField hroles field rest (fun other hother =>
          horderly other (List.mem_append_right _ hother)) hmoves

theorem coversPart_movesElse (hroles : program.SingleRoles) : ∀ (nodes : List Node)
    {found : List Move}, (∀ other ∈ Node.nodesAll nodes, Orderly other) →
      movesElse nodes = .ok found →
        CoversPart program found (nodes.find? (Node.carries .alternative))
  | [], found, _, hmoves => by
      cases hmoves
      rfl
  | child :: rest, found, horderly, hmoves => by
      rw [Node.nodesAll] at horderly
      have hchild : ∀ other ∈ child.nodes, Orderly other :=
        fun other hother => horderly other (List.mem_append_left _ hother)
      rw [movesElse] at hmoves
      rw [List.find?_cons]
      split at hmoves
      · rename_i hcarries
        rw [hcarries]
        split at hmoves
        · rename_i hclause
          exact covers_movesClause hroles child hclause hchild hmoves
        · exact covers_moves hroles child hchild hmoves
      · rename_i hcarries
        rw [eq_false_of_ne_true hcarries]
        exact coversPart_movesElse hroles rest (fun other hother =>
          horderly other (List.mem_append_right _ hother)) hmoves

theorem covers_movesClause (hroles : program.SingleRoles) : ∀ (node : Node) {found : List Move},
    node.kind = .elseClause → (∀ other ∈ node.nodes, Orderly other) →
      movesClause node = .ok found → Covers program found (Names.steps node)
  | .mk site children, found, hkind, horderly, hmoves => by
      have hbelow : ∀ other ∈ Node.nodesAll children, Orderly other :=
        fun other hother => horderly other (List.mem_cons_of_mem _ hother)
      have hregular : ∀ child ∈ children, child.Regular :=
        fun child hchild => (hbelow child (Node.mem_nodesAll hchild)).regular
      have hone := (horderly _ (Node.mem_nodes_self _)).regular.clause hkind
      have hfirst := coversPart_movesFirst hroles children hbelow hmoves
      rw [steps_of_goesOn (by rw [hkind]; rfl)]
      -- the first part is the only one
      rw [← List.head?_filter] at hfirst
      cases hcontents : children.filter Node.isContent with
      | nil =>
          rw [hcontents] at hfirst
          cases hfirst
          exact covers_contents hregular hcontents .nil
      | cons child rest =>
          rw [Node.contents, Node.children, hcontents] at hone
          obtain rfl : rest = [] := by simpa using hone
          rw [hcontents] at hfirst
          have hcovers := covers_contents hregular hcontents (.cons hfirst .nil)
          simpa using hcovers

theorem coversPart_movesFirst (hroles : program.SingleRoles) : ∀ (nodes : List Node)
    {found : List Move}, (∀ other ∈ Node.nodesAll nodes, Orderly other) →
      movesFirst nodes = .ok found → CoversPart program found (nodes.find? Node.isContent)
  | [], found, _, hmoves => by
      cases hmoves
      rfl
  | child :: rest, found, horderly, hmoves => by
      rw [Node.nodesAll] at horderly
      rw [movesFirst] at hmoves
      rw [List.find?_cons]
      split at hmoves
      · rename_i hcontent
        rw [hcontent]
        exact covers_moves hroles child (fun other hother =>
          horderly other (List.mem_append_left _ hother)) hmoves
      · rename_i hcontent
        rw [eq_false_of_ne_true hcontent]
        exact coversPart_movesFirst hroles rest (fun other hother =>
          horderly other (List.mem_append_right _ hother)) hmoves

end

end LexicalWalk

/-! ## Programs -/

namespace Program

open LexicalWalk

variable {program : Program}

/-- Parameters go to the outermost frame. -/
theorem frames_parameters {nodes : List Node} (h : nodes ⊆ program.parameters) (binder : Binder)
    (houter : binder.scope.outer = [])
    (hinner : ∀ entry ∈ binder.scope.inner, program.isLocal entry.2 = false) :
    ((nodes.map fun node => Step.declare node.site).foldl (Binder.take program)
        binder).scope.outer = [] ∧
      ∀ entry ∈ ((nodes.map fun node => Step.declare node.site).foldl (Binder.take program)
        binder).scope.inner, program.isLocal entry.2 = false := by
  induction nodes generalizing binder with
  | nil => exact ⟨houter, hinner⟩
  | cons node rest ih =>
      obtain ⟨hnode, hrest⟩ := List.cons_subset.mp h
      refine ih hrest (binder.take program (.declare node.site)) houter ?_
      intro entry hentry
      rcases List.mem_cons.mp hentry with rfl | hentry
      · rw [isLocal, Bool.not_eq_false', List.contains_iff_mem]
        exact List.mem_map_of_mem hnode
      · exact hinner entry hentry

/-- When the statements begin, nothing is bound but parameters. -/
theorem agrees_parameters (program : Program) : Agrees program Scope.empty
    ((program.parameters.map fun node => Step.declare node.site).foldl (Binder.take program)
      .start).scope := by
  obtain ⟨houter, hinner⟩ := frames_parameters (List.Subset.refl program.parameters) .start rfl
    (List.forall_mem_nil _)
  generalize ((program.parameters.map fun node => Step.declare node.site).foldl
    (Binder.take program) .start).scope = scope at houter hinner
  obtain ⟨inner, outer⟩ := scope
  cases houter
  refine ⟨.cons (fun name => ?_) .nil, List.forall_mem_nil _⟩
  cases hget : Frame.get? name inner with
  | none => rfl
  | some var => exact (hinner _ (Binder.mem_of_lookup hget)).symm

theorem inside_parameters (program : Program) : program.Inside
    ((program.parameters.map fun node => Step.declare node.site).foldl (Binder.take program) .start)
    (stepsNamed program.entry.body.children) where
  stage := program.stage_start.advance
  parameters := by
    intro parameter hparameter
    rw [Binder.map_site_declared]
    refine List.mem_append_left _ (List.mem_reverse.mpr (List.mem_filterMap.mpr ?_))
    exact ⟨.declare parameter.site, List.mem_map_of_mem hparameter, rfl⟩

/-- An assignment that the lexical walk meets is passed over if and only if its target has no
name, or that of a parameter. -/
theorem skips_iff_unseen (hroles : program.SingleRoles)
    (hnamed : ∀ node ∈ Node.nodesAll program.root.children, node.RoleNamed)
    (hregular : ∀ node ∈ Node.nodesAll program.root.children, node.Regular)
    (hclosed : ∀ node ∈ Node.nodesAll program.root.children, node.ClosedBody)
    {front back : List Move} {assignment : Assignment}
    (hmoves : program.lexicalMoves = .ok (front ++ .act (.write assignment) :: back))
    (hkind : assignment.kind ≠ .declaration) :
    Skips program (front.foldl (take program) .start) assignment ↔
      program.names.get? assignment.target = none ∨
        ∃ parameter ∈ program.parameters,
          program.declarationOf? assignment.target = some parameter.site := by
  have horderly : ∀ node ∈ Node.nodesAll program.entry.body.children, Orderly node := by
    intro node hnode
    have hmem := program.nodes_entry_sublist.subset hnode
    exact ⟨hnamed node hmem, hregular node hmem, hclosed node hmem⟩
  have hcovers := covers_movesNamed hroles _ horderly hmoves
  have hinside := program.inside_parameters
  rw [← List.append_nil (stepsNamed _)] at hinside
  obtain ⟨-, hright⟩ := hcovers [] _ .start hinside program.agrees_parameters
  exact hright front assignment back rfl hkind

/-- A function that assigns to its parameter and reads it. -/
def parameterizedTree : Node :=
  sampleNode (.other "program") 0 35 []
    [sampleNode .functionDeclaration 0 35 []
      [sampleNode .identifier 9 10 [.name] [],
        sampleNode (.other "formal_parameters") 10 13 [.parameters]
          [sampleNode .identifier 11 12 [] []],
        sampleNode .statementBlock 14 35 [.body]
          [sampleNode .expressionStatement 16 22 []
            [sampleNode .assignmentExpression 16 21 []
              [sampleNode .identifier 16 17 [.left] [],
                sampleNode (.other "number") 20 21 [.right] []]],
            sampleNode .lexicalDeclaration 23 33 []
              [sampleNode .variableDeclarator 27 32 []
                [sampleNode .identifier 27 28 [.name] [],
                  sampleNode .identifier 31 32 [.value] []]]]]]

def parameterized : Program :=
  ⟨"function f(n) { n = 1; let a = n; }", .javascript, parameterizedTree.number 0,
    parameterizedTree.nodup_ids_number 0⟩

/-- The assignment to the parameter is passed over. -/
theorem skips_iff_unseen_parameterized : ∃ front assignment back,
    parameterized.lexicalMoves = .ok (front ++ .act (.write assignment) :: back) ∧
    assignment.kind = .simple ∧ Skips parameterized (front.foldl (take parameterized) .start)
      assignment := by
  refine ⟨[], _, _, rfl, rfl, ?_⟩
  refine (skips_iff_unseen (by decide) (by decide) (by decide) (by decide) rfl (by decide)).mpr
    (.inr ?_)
  decide +kernel

/-- A `for` whose body declares the variable that the increment assigns to. -/
def bareBodyTree : Node :=
  sampleNode (.other "program") 0 25 []
    [sampleNode .forStatement 0 25 []
      [sampleNode .emptyStatement 5 6 [.initializer] [],
        sampleNode .emptyStatement 6 7 [.condition] [],
        sampleNode .assignmentExpression 8 13 [.increment]
          [sampleNode .identifier 8 9 [.left] [],
            sampleNode (.other "number") 12 13 [.right] []],
        sampleNode .variableDeclaration 15 25 [.body]
          [sampleNode .variableDeclarator 19 24 []
            [sampleNode .identifier 19 20 [.name] [],
              sampleNode (.other "number") 23 24 [.value] []]]]]

def bareBody : Program :=
  ⟨"for (;; x = 1) var x = 2;", .javascript, bareBodyTree.number 0,
    bareBodyTree.nodup_ids_number 0⟩

/-- An assignment with a name is passed over, and one without a name is not. -/
theorem visibility_differs :
    (∃ front assignment back,
      parameterized.lexicalMoves = .ok (front ++ .act (.write assignment) :: back) ∧
      assignment.kind ≠ .declaration ∧
      Skips parameterized (front.foldl (take parameterized) .start) assignment ∧
      parameterized.names.get? assignment.target = some "n") ∧
    ∃ front assignment back,
      bareBody.lexicalMoves = .ok (front ++ .act (.write assignment) :: back) ∧
      assignment.kind ≠ .declaration ∧
      ¬ Skips bareBody (front.foldl (take bareBody) .start) assignment ∧
      bareBody.names.get? assignment.target = none := by
  constructor
  · refine ⟨[], _, _, rfl, by decide, (skips_iff_lookup (by decide)).mpr rfl, by decide +kernel⟩
  · refine ⟨[.push, _], _, _, rfl, by decide, ?_, by decide +kernel⟩
    rw [skips_iff_lookup (by decide), ← Option.isNone_iff_eq_none]
    decide +kernel

end Program

end DefUse
