/-
# `Proofs.Statement.Accepted` — which programs have a graph, and what is reported of the others

The statements that have a graph are given by a grammar (`Accepted`), one rule for each
kind of statement.  It speaks of the syntax tree alone and not of how it is read.

A statement that is not accepted is at fault itself (`Placed.fault?`), or some statement
inside it is.  Reading goes over the statements in one fixed order, a statement before
those inside it (`Placed.walk`), and reports the first fault it meets.  So all that has
to be known of reading is one step of it: the fault of the statement itself, or else the
first one reported of a part (`Placed.refusal?_eq`).  Code that no run comes to is
walked over like any other.
-/
import DefUse.Proofs.Comment.Tree
import DefUse.Proofs.Graph.Build
import DefUse.Proofs.Statement

namespace DefUse

open DefUse.Tree Statement

section Lists

variable {α β γ : Type}

theorem findSome?_flatMap {f : α → List β} {find : β → Option γ} {xs : List α} :
    (xs.flatMap f).findSome? find = xs.findSome? fun x => (f x).findSome? find := by
  induction xs with
  | nil => rfl
  | cons x rest ih =>
      rw [List.flatMap_cons, List.findSome?_append, List.findSome?_cons, ih]
      cases (f x).findSome? find <;> rfl

theorem findSome?_congr {find find' : α → Option β} {xs : List α}
    (h : ∀ x ∈ xs, find x = find' x) : xs.findSome? find = xs.findSome? find' := by
  induction xs with
  | nil => rfl
  | cons x rest ih =>
      rw [List.findSome?_cons, List.findSome?_cons, h x List.mem_cons_self,
        ih fun y hy => h y (List.mem_cons_of_mem _ hy)]

end Lists

/-! ## What is inside is smaller -/

namespace Tree.Node

theorem size_le_sizeAll {child : Node} : ∀ {children : List Node},
    child ∈ children → child.size ≤ sizeAll children
  | first :: rest, h => by
      rw [sizeAll]
      rcases List.mem_cons.mp h with rfl | h
      · exact Nat.le_add_right _ _
      · exact Nat.le_trans (size_le_sizeAll h) (Nat.le_add_left _ _)

theorem size_lt_of_mem_children {node child : Node} (h : child ∈ node.children) :
    child.size < node.size := by
  obtain ⟨site, children⟩ := node
  exact Nat.lt_succ_of_le (size_le_sizeAll h)

theorem size_lt_of_elseArm? {node arm : Node} (h : elseArm? node = some arm) :
    arm.size < node.size := by
  rw [elseArm?] at h
  split at h
  · cases h
  · rename_i alternative hfield
    have hbelow := size_lt_of_mem_children (List.mem_of_find?_eq_some hfield)
    split at h
    · exact Nat.lt_trans (size_lt_of_mem_children (List.mem_of_find?_eq_some h)) hbelow
    · cases h
      exact hbelow

end Tree.Node

/-! ## The grammar -/

/-- A statement where it stands. -/
structure Placed where
  /-- Is there a loop around it? -/
  inLoop : Bool
  node : Node

/-- The statements that have a graph. -/
inductive Accepted : Placed → Prop
  | simple {inLoop : Bool} {node : Node} :
      node.kind = .expressionStatement ∨ node.kind = .lexicalDeclaration ∨
        node.kind = .variableDeclaration → Accepted ⟨inLoop, node⟩
  | idle {inLoop : Bool} {node : Node} :
      node.kind = .emptyStatement ∨ node.kind = .hashBangLine ∨ node.isComment = true →
      Accepted ⟨inLoop, node⟩
  | block {inLoop : Bool} {node : Node} : node.kind = .statementBlock →
      (∀ child ∈ node.namedChildren, Accepted ⟨inLoop, child⟩) → Accepted ⟨inLoop, node⟩
  | ifElse {inLoop : Bool} {node : Node} : node.kind = .ifStatement →
      (node.field? .condition).isSome →
      (∀ arm ∈ node.field? .consequence, Accepted ⟨inLoop, arm⟩) →
      (∀ arm ∈ elseArm? node, Accepted ⟨inLoop, arm⟩) → Accepted ⟨inLoop, node⟩
  | whileOrDo {inLoop : Bool} {node : Node} :
      node.kind = .whileStatement ∨ node.kind = .doStatement →
      (node.field? .condition).isSome →
      (∀ body ∈ node.field? .body, Accepted ⟨true, body⟩) → Accepted ⟨inLoop, node⟩
  | forLoop {inLoop : Bool} {node : Node} : node.kind = .forStatement →
      (∀ body ∈ node.field? .body, Accepted ⟨true, body⟩) → Accepted ⟨inLoop, node⟩
  | jump {node : Node} : node.kind = .breakStatement ∨ node.kind = .continueStatement →
      node.field? .label = none → Accepted ⟨true, node⟩
  | ret {inLoop : Bool} {node : Node} : node.kind = .returnStatement → Accepted ⟨inLoop, node⟩

namespace Placed

/-- The statements directly inside a statement, in the order in which they are read. -/
def parts (placed : Placed) : List Placed :=
  match placed.node.kind with
  | .statementBlock => placed.node.namedChildren.map fun child => ⟨placed.inLoop, child⟩
  | .ifStatement =>
    ((placed.node.field? .consequence).toList ++ (elseArm? placed.node).toList).map fun arm =>
      ⟨placed.inLoop, arm⟩
  | .whileStatement | .doStatement | .forStatement =>
    (placed.node.field? .body).toList.map fun body => ⟨true, body⟩
  | _ => []

/-- What is wrong with a `break` or `continue`. -/
def jumpFault? (jump : LoopJump) (placed : Placed) : Option AnalysisError :=
  if (placed.node.field? .label).isSome then
    some (.unsupported ("labeled " ++ jump.keyword) placed.node.line)
  else if placed.inLoop then none
  else some (.noEnclosingLoop jump placed.node.line)

/-- What is wrong with a statement that cannot be without a condition. -/
def conditionFault? (placed : Placed) : Option AnalysisError :=
  if (placed.node.field? .condition).isSome then none
  else some (.unsupported "statement without condition" placed.node.line)

/-- What is wrong with a statement itself, whatever is inside it. -/
def fault? (placed : Placed) : Option AnalysisError :=
  match placed.node.kind with
  | .expressionStatement | .lexicalDeclaration | .variableDeclaration | .statementBlock
  | .emptyStatement | .hashBangLine | .comment _ | .forStatement | .returnStatement => none
  | .ifStatement | .whileStatement | .doStatement => placed.conditionFault?
  | .breakStatement => placed.jumpFault? .leave
  | .continueStatement => placed.jumpFault? .again
  | kind => some (.unsupported (constructName kind) placed.node.line)

/-! ## The walk -/

theorem size_lt_of_mem_parts {placed part : Placed} (h : part ∈ placed.parts) :
    part.node.size < placed.node.size := by
  have hfield : ∀ {field : Field} {child : Node}, child ∈ (placed.node.field? field).toList →
      child.size < placed.node.size := fun hchild =>
    Node.size_lt_of_mem_children (List.mem_of_find?_eq_some (Option.mem_toList.mp hchild))
  rw [parts] at h
  split at h
  · obtain ⟨child, hchild, rfl⟩ := List.mem_map.mp h
    exact Node.size_lt_of_mem_children (List.mem_of_mem_filter hchild)
  · obtain ⟨arm, harm, rfl⟩ := List.mem_map.mp h
    rcases List.mem_append.mp harm with harm | harm
    · exact hfield harm
    · exact Node.size_lt_of_elseArm? (Option.mem_toList.mp harm)
  · obtain ⟨body, hbody, rfl⟩ := List.mem_map.mp h
    exact hfield hbody
  · obtain ⟨body, hbody, rfl⟩ := List.mem_map.mp h
    exact hfield hbody
  · obtain ⟨body, hbody, rfl⟩ := List.mem_map.mp h
    exact hfield hbody
  · cases h

/-- A statement and all statements inside it, each before those inside it. -/
def walk (placed : Placed) : List Placed :=
  placed :: placed.parts.attach.flatMap fun part => walk part.1
termination_by placed.node.size
decreasing_by exact size_lt_of_mem_parts part.2

theorem walk_eq (placed : Placed) : placed.walk = placed :: placed.parts.flatMap walk := by
  rw [walk]
  simp

end Placed

/-! ## The grammar decides -/

namespace Accepted

open Placed

variable {placed : Placed}

/-- An accepted statement is not at fault, and its parts are accepted. -/
theorem of_parts (h : Accepted placed) :
    placed.fault? = none ∧ ∀ part ∈ placed.parts, Accepted part := by
  cases h with
  | simple hkind => rcases hkind with hkind | hkind | hkind <;> simp [fault?, parts, hkind]
  | @idle inLoop node hkind =>
      rcases hkind with hkind | hkind | hkind
      · simp [fault?, parts, hkind]
      · simp [fault?, parts, hkind]
      · obtain ⟨name, hname⟩ := Node.kind_of_isComment hkind
        simp [fault?, parts, hname]
  | block hkind hchildren => simpa [fault?, parts, hkind] using hchildren
  | ifElse hkind hcondition hthen helse =>
      refine ⟨by simp [fault?, conditionFault?, hkind, hcondition], ?_⟩
      simp only [parts, hkind, List.mem_map, List.mem_append, Option.mem_toList]
      rintro _ ⟨arm, harm | harm, rfl⟩
      · exact hthen arm harm
      · exact helse arm harm
  | whileOrDo hkind hcondition hbody =>
      rcases hkind with hkind | hkind
      · simpa [fault?, conditionFault?, parts, hkind, hcondition] using hbody
      · simpa [fault?, conditionFault?, parts, hkind, hcondition] using hbody
  | forLoop hkind hbody => simpa [fault?, parts, hkind] using hbody
  | jump hkind hlabel =>
      rcases hkind with hkind | hkind <;> simp [fault?, jumpFault?, parts, hkind, hlabel]
  | ret hkind => simp [fault?, parts, hkind]

theorem condition_of_fault? (h : placed.conditionFault? = none) :
    (placed.node.field? .condition).isSome := by
  rw [conditionFault?] at h
  split at h
  · assumption
  · cases h

theorem jump_of_fault? {jump : LoopJump} (h : placed.jumpFault? jump = none) :
    placed.node.field? .label = none ∧ placed.inLoop = true := by
  rw [jumpFault?] at h
  split at h
  · cases h
  · rename_i hlabel
    split at h
    · rename_i hloop
      exact ⟨by simpa using hlabel, hloop⟩
    · cases h

/-- Conversely a statement with accepted parts is accepted, unless it is at fault itself. -/
theorem iff_parts (placed : Placed) :
    Accepted placed ↔ placed.fault? = none ∧ ∀ part ∈ placed.parts, Accepted part := by
  refine ⟨of_parts, ?_⟩
  rintro ⟨hfault, hparts⟩
  obtain ⟨inLoop, node⟩ := placed
  -- what the parts of a loop are
  have hbody : node.kind = .whileStatement ∨ node.kind = .doStatement ∨
      node.kind = .forStatement → ∀ body ∈ node.field? .body, Accepted ⟨true, body⟩ := by
    intro hkind body hmem
    refine hparts ⟨true, body⟩ ?_
    rcases hkind with hkind | hkind | hkind <;> simpa [parts, hkind] using hmem
  rw [fault?] at hfault
  split at hfault
  · exact .simple (.inl ‹_›)
  · exact .simple (.inr (.inl ‹_›))
  · exact .simple (.inr (.inr ‹_›))
  · rename_i hkind
    refine .block hkind fun child hchild => hparts _ ?_
    simpa [parts, hkind] using hchild
  · exact .idle (.inl ‹_›)
  · exact .idle (.inr (.inl ‹_›))
  · rename_i hkind
    exact .idle (.inr (.inr (congrArg Kind.isComment hkind)))
  · rename_i hkind
    exact .forLoop hkind (hbody (.inr (.inr hkind)))
  · exact .ret ‹_›
  · rename_i hkind
    refine .ifElse hkind (condition_of_fault? hfault) ?_ ?_
    · intro arm harm
      refine hparts _ ?_
      simp only [parts, hkind, List.mem_map, List.mem_append, Option.mem_toList]
      exact ⟨arm, .inl harm, rfl⟩
    · intro arm harm
      refine hparts _ ?_
      simp only [parts, hkind, List.mem_map, List.mem_append, Option.mem_toList]
      exact ⟨arm, .inr harm, rfl⟩
  · rename_i hkind
    exact .whileOrDo (.inl hkind) (condition_of_fault? hfault) (hbody (.inl hkind))
  · rename_i hkind
    exact .whileOrDo (.inr hkind) (condition_of_fault? hfault) (hbody (.inr (.inl hkind)))
  · rename_i hkind
    obtain ⟨hlabel, rfl⟩ := jump_of_fault? hfault
    exact .jump (.inl hkind) hlabel
  · rename_i hkind
    obtain ⟨hlabel, rfl⟩ := jump_of_fault? hfault
    exact .jump (.inr hkind) hlabel
  · cases hfault

/-- A statement is accepted if nothing on its walk is at fault. -/
theorem iff_walk (placed : Placed) : Accepted placed ↔ ∀ spot ∈ placed.walk, spot.fault? = none := by
  rw [iff_parts, walk_eq, List.forall_mem_cons]
  refine and_congr_right fun _ => ?_
  simp only [List.forall_mem_flatMap]
  exact forall₂_congr fun part hpart => iff_walk part
termination_by placed.node.size
decreasing_by exact size_lt_of_mem_parts hpart

end Accepted

/-! ## Reading -/

namespace Statement

variable {α β : Type} {inLoop : Bool}

/-- The reason why something is refused, if it is. -/
def refusal? : Except AnalysisError α → Option AnalysisError
  | .ok _ => none
  | .error reason => some reason

theorem refusal?_eq_some {x : Except AnalysisError α} {error : AnalysisError} :
    refusal? x = some error ↔ x = .error error := by
  cases x <;> simp [refusal?]

theorem refusal?_eq_none {x : Except AnalysisError α} :
    refusal? x = none ↔ ∃ a, x = .ok a := by
  cases x <;> simp [refusal?]

/-- Of two steps the first is reported, if both are refused. -/
theorem refusal?_bind {x : Except AnalysisError α} {f : α → Except AnalysisError β}
    {later : Option AnalysisError} (h : ∀ a, x = .ok a → refusal? (f a) = later) :
    refusal? (x >>= f) = (refusal? x).or later := by
  cases x with
  | ok a => exact h a rfl
  | error reason => rfl

/-- A last step that cannot fail is never reported. -/
theorem refusal?_last {x : Except AnalysisError α} {f : α → β} :
    refusal? (x >>= fun a => pure (f a)) = refusal? x := by
  cases x <;> rfl

/-- Reads a part that may be absent. -/
def ofOption (inLoop : Bool) : Option Node → Except AnalysisError Statement
  | none => .ok .skip
  | some node => ofNode inLoop node

theorem ofField_eq (field : Field) (children : List Node) :
    ofField inLoop field children = ofOption inLoop (children.find? (Node.carries field)) := by
  induction children with
  | nil =>
      rw [ofField]
      rfl
  | cons child rest ih =>
      rw [ofField, List.find?_cons]
      cases child.carries field with
      | true => rfl
      | false => exact ih

theorem ofFirst_eq (children : List Node) :
    ofFirst inLoop children = ofOption inLoop (children.find? Node.isContent) := by
  induction children with
  | nil =>
      rw [ofFirst]
      rfl
  | cons child rest ih =>
      rw [ofFirst, List.find?_cons]
      cases child.isContent with
      | true => rfl
      | false => exact ih

theorem ofElse_eq (site : Site) (children : List Node) :
    ofElse inLoop children = ofOption inLoop (elseArm? (.mk site children)) := by
  rw [elseArm?, Node.field?, Node.children_mk]
  induction children with
  | nil =>
      rw [ofElse]
      rfl
  | cons child rest ih =>
      rw [ofElse, List.find?_cons]
      cases child.carries .alternative with
      | true =>
          obtain ⟨inner, below⟩ := child
          simp only [if_true, ofClause, ofFirst_eq, Node.firstNamed?, Node.children_mk]
          split <;> rfl
      | false => exact ih

end Statement

namespace Placed

/-- What is reported of a statement. -/
def refusal? (placed : Placed) : Option AnalysisError :=
  Statement.refusal? (ofNode placed.inLoop placed.node)

variable {inLoop : Bool}

theorem refusal?_ofNamed (children : List Node) :
    Statement.refusal? (ofNamed inLoop children) =
      (children.filter Node.isNamed).findSome? fun child => refusal? ⟨inLoop, child⟩ := by
  induction children with
  | nil =>
      rw [ofNamed]
      rfl
  | cons child rest ih =>
      rw [ofNamed, List.filter_cons]
      split
      · refine (refusal?_bind fun first _ => refusal?_last).trans ?_
        rw [ih, List.findSome?_cons, refusal?]
        cases Statement.refusal? (ofNode inLoop child) <;> rfl
      · exact ih

theorem refusal?_ofOption (part : Option Node) :
    Statement.refusal? (ofOption inLoop part) =
      part.toList.findSome? fun child => refusal? ⟨inLoop, child⟩ := by
  cases part with
  | none => rfl
  | some node =>
      rw [Option.toList_some, List.findSome?_singleton]
      rfl

theorem refusal?_conditionOf (placed : Placed) :
    Statement.refusal? (conditionOf placed.node) = placed.conditionFault? := by
  rw [conditionOf, conditionFault?]
  cases placed.node.field? .condition <;> rfl

theorem refusal?_ofJump (jump : LoopJump) (placed : Placed) :
    Statement.refusal? (ofJump placed.inLoop jump placed.node) = placed.jumpFault? jump := by
  rw [ofJump, jumpFault?]
  split
  · rfl
  · split <;> rfl

theorem refusal?_ofField (field : Field) (site : Site) (children : List Node) :
    Statement.refusal? (ofField inLoop field children) =
      ((Node.field? field (.mk site children)).toList.map (mk inLoop)).findSome? refusal? := by
  rw [ofField_eq, refusal?_ofOption, List.findSome?_map]
  rfl

theorem refusal?_ofElse (site : Site) (children : List Node) :
    Statement.refusal? (ofElse inLoop children) =
      ((elseArm? (.mk site children)).toList.map (mk inLoop)).findSome? refusal? := by
  rw [ofElse_eq site, refusal?_ofOption, List.findSome?_map]
  rfl

/-- One step of reading: the fault of the statement itself is reported, or else the first
one reported of a part. -/
theorem refusal?_eq (placed : Placed) :
    placed.refusal? = placed.fault?.or (placed.parts.findSome? refusal?) := by
  obtain ⟨inLoop, ⟨site, children⟩⟩ := placed
  have hcondition := refusal?_conditionOf ⟨inLoop, .mk site children⟩
  rw [refusal?, ofNode, fault?, parts]
  simp only [Node.kind, Node.site_mk]
  -- what is neither a condition nor a jump nor has parts is the same on both sides
  cases site.kind with
  | statementBlock =>
      rw [refusal?_ofNamed, Node.namedChildren, List.findSome?_map]
      rfl
  | ifStatement =>
      rw [← hcondition, List.map_append, List.findSome?_append]
      refine refusal?_bind fun condition _ => ?_
      rw [← refusal?_ofField, ← refusal?_ofElse]
      exact refusal?_bind fun thenArm _ => refusal?_last
  | whileStatement =>
      rw [← hcondition, ← refusal?_ofField]
      exact refusal?_bind fun condition _ => refusal?_last
  | doStatement =>
      rw [← hcondition, ← refusal?_ofField]
      exact refusal?_bind fun condition _ => refusal?_last
  | forStatement =>
      rw [Option.none_or, ← refusal?_ofField]
      exact refusal?_last
  | breakStatement =>
      rw [List.findSome?_nil, Option.or_none]
      exact refusal?_ofJump .leave ⟨inLoop, .mk site children⟩
  | continueStatement =>
      rw [List.findSome?_nil, Option.or_none]
      exact refusal?_ofJump .again ⟨inLoop, .mk site children⟩
  | _ => rfl

/-- From step to step: what is reported of a statement is the first fault on its walk. -/
theorem refusal?_eq_walk (placed : Placed) : placed.refusal? = placed.walk.findSome? fault? := by
  rw [refusal?_eq, walk_eq, List.findSome?_cons]
  have hparts : placed.parts.findSome? refusal? =
      (placed.parts.flatMap walk).findSome? fault? := by
    rw [findSome?_flatMap]
    exact findSome?_congr fun part hpart => refusal?_eq_walk part
  rw [hparts]
  cases placed.fault? <;> rfl
termination_by placed.node.size
decreasing_by exact size_lt_of_mem_parts hpart

end Placed

/-! ## Programs -/

namespace Program

variable {program : Program}

/-- All statements of a program, each before those inside it. -/
def walk (program : Program) : List Placed :=
  program.entry.body.namedChildren.flatMap fun statement => (Placed.mk false statement).walk

theorem refusal?_statement (program : Program) :
    refusal? program.statement = program.walk.findSome? Placed.fault? := by
  rw [statement, Placed.refusal?_ofNamed, walk, findSome?_flatMap]
  exact findSome?_congr fun child _ => Placed.refusal?_eq_walk ⟨false, child⟩

/-- The graph is refused for the same reason as the statements, and for no other. -/
theorem refusal?_graph (program : Program) :
    refusal? program.graph = refusal? program.statement := by
  cases hstatement : program.statement with
  | ok statement =>
      rw [graph_of_statement hstatement]
      rfl
  | error reason =>
      rw [graph, hstatement]
      rfl

/-- A program has a graph if the statements of its entry are accepted.  Otherwise the
first fault is reported that there is on the walk. -/
theorem graph_iff_accepted (program : Program) :
    ((∃ graph, program.graph = .ok graph) ↔
      ∀ statement ∈ program.entry.body.namedChildren, Accepted ⟨false, statement⟩) ∧
    ∀ error, program.graph = .error error ↔ ∃ before spot after,
      program.walk = before ++ spot :: after ∧
        (∀ earlier ∈ before, earlier.fault? = none) ∧ spot.fault? = some error := by
  have hgraph := (refusal?_graph program).trans (refusal?_statement program)
  constructor
  · rw [← refusal?_eq_none, hgraph, List.findSome?_eq_none_iff, walk]
    simp only [List.forall_mem_flatMap]
    exact forall₂_congr fun statement _ => (Accepted.iff_walk ⟨false, statement⟩).symm
  · intro error
    rw [← refusal?_eq_some, hgraph, List.findSome?_eq_some_iff]
    exact exists_congr fun before => exists_congr fun spot => exists_congr fun after =>
      and_congr_right fun _ => and_comm

end Program

end DefUse
