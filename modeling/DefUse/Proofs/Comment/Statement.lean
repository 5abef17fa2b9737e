/-
# `Proofs.Comment.Statement` — comments leave no trace in the graph

A comment among statements is read as a statement that does nothing, so the statement of
a tree and that of the tree without comments are not equal: the first one has more parts.
But they are drawn in the same way, up to the comments inside the nodes that the blocks
hold (`Statement.Uncomments`); and both are refused for the same reason or not at all.
-/
import DefUse.Proofs.Comment.Effect
import DefUse.Proofs.Graph.Holds
import DefUse.Proofs.Graph.Map

namespace DefUse

open DefUse.Tree
open DefUse.Tree.Node

namespace Statement

/-- A statement without comments is drawn like one with comments, apart from those inside of nodes;
and those are as they should be. -/
structure Uncomments (bare statement : Statement) : Prop where
  add : Draft.add bare = Draft.add (statement.mapNodes uncommented)
  holds : statement.Holds Bare Bare

variable {first first' second second' body body' : Statement}

theorem uncomments_skip : Uncomments .skip .skip :=
  ⟨rfl, trivial⟩

theorem uncomments_jump (jump : LoopJump) : Uncomments (.jump jump) (.jump jump) :=
  ⟨rfl, trivial⟩

theorem Uncomments.seq (h : first.Uncomments first') (h' : second.Uncomments second') :
    Uncomments (.seq first second) (.seq first' second') := by
  refine ⟨?_, h.holds, h'.holds⟩
  funext loop draft
  simp only [mapNodes, Draft.add, h.add, h'.add]

/-- A comment comes before the other statements and draws nothing. -/
theorem Uncomments.skip_seq (h : second.Uncomments second') :
    Uncomments second (.seq .skip second') :=
  ⟨h.add, trivial, h.holds⟩

theorem Uncomments.ifElse {condition : Node} (hcondition : BareComments condition.nodes)
    (h : first.Uncomments first') (h' : second.Uncomments second') :
    Uncomments (.ifElse condition.uncommented first second) (.ifElse condition first' second') := by
  refine ⟨?_, hcondition, h.holds, h'.holds⟩
  funext loop draft
  simp only [mapNodes, Draft.add, h.add, h'.add]

theorem Uncomments.whileLoop {condition : Node} (hcondition : BareComments condition.nodes)
    (h : body.Uncomments body') :
    Uncomments (.whileLoop condition.uncommented body) (.whileLoop condition body') := by
  refine ⟨?_, hcondition, h.holds⟩
  funext loop draft
  simp only [mapNodes, Draft.add, h.add]

theorem Uncomments.doLoop {condition : Node} (hcondition : BareComments condition.nodes)
    (h : body.Uncomments body') :
    Uncomments (.doLoop condition.uncommented body) (.doLoop condition body') := by
  refine ⟨?_, hcondition, h.holds⟩
  funext loop draft
  simp only [mapNodes, Draft.add, h.add]

theorem Uncomments.forLoop {clauses : ForClauses}
    (hinitializer : ∀ part ∈ clauses.initializer, BareComments part.nodes)
    (hcondition : ∀ part ∈ clauses.condition, BareComments part.nodes)
    (hincrement : ∀ part ∈ clauses.increment, BareComments part.nodes)
    (h : body.Uncomments body') :
    Uncomments
      (.forLoop clauses.uncommented.initializer clauses.uncommented.condition
        clauses.uncommented.increment body)
      (.forLoop clauses.initializer clauses.condition clauses.increment body') := by
  refine ⟨?_, hinitializer, hcondition, hincrement, h.holds⟩
  funext loop draft
  simp only [ForClauses.uncommented, mapNodes, Draft.add, h.add]

/-! ## Reading a statement off the tree -/

theorem ofNode_of_isComment {node : Node} (inLoop : Bool) (hcomment : node.isComment = true) :
    ofNode inLoop node = .ok .skip := by
  obtain ⟨name, hkind⟩ := kind_of_isComment hcomment
  obtain ⟨site, children⟩ := node
  rw [kind, site_mk] at hkind
  rw [ofNode, hkind]

theorem ofJump_uncommented {node : Node} (h : BareComments node.nodes) (inLoop : Bool)
    (jump : LoopJump) :
    SameEnd Uncomments (ofJump inLoop jump node.uncommented) (ofJump inLoop jump node) := by
  rw [ofJump, ofJump, field?_uncommented h.below, Option.isSome_map, unsupportedAt,
    line_uncommented]
  split
  · exact .error _
  · split
    · exact .ok (uncomments_jump jump)
    · exact .error _

theorem conditionOf_uncommented {node : Node} (h : BareComments node.nodes) :
    SameEnd (fun bare condition => bare = condition.uncommented ∧ BareComments condition.nodes)
      (conditionOf node.uncommented) (conditionOf node) := by
  rw [conditionOf, conditionOf, field?_uncommented h.below, unsupportedAt, line_uncommented]
  cases hcondition : node.field? .condition with
  | none => exact .error _
  | some condition => exact .ok ⟨rfl, h.field? hcondition⟩

mutual

theorem ofNode_uncommented (inLoop : Bool) : ∀ node : Node, BareComments node.nodes →
    SameEnd Uncomments (ofNode inLoop node.uncommented) (ofNode inLoop node)
  | .mk site children, h => by
      have hbelow : BareComments (nodesAll children) := h.below
      have hroot : Node.mk site (uncommentedAll children) = (Node.mk site children).uncommented :=
        rfl
      have hsimple : Uncomments (.simple (Node.mk site children).uncommented)
          (.simple (Node.mk site children)) := ⟨rfl, h⟩
      rw [uncommented, ofNode, ofNode, hroot, ForClauses.ofNode_uncommented h.below,
        firstNamed?_uncommented]
      generalize site.kind = kind
      split
      · exact .ok hsimple
      · exact .ok hsimple
      · exact .ok hsimple
      · exact ofNamed_uncommentedAll inLoop children hbelow
      · exact .ok uncomments_skip
      · exact .ok uncomments_skip
      · exact .ok uncomments_skip
      · refine (conditionOf_uncommented h).bind ?_
        rintro _ condition ⟨rfl, hcondition⟩
        exact (ofField_uncommentedAll inLoop .consequence children hbelow).bind fun _ _ hthen =>
          (ofElse_uncommentedAll inLoop children hbelow).bind fun _ _ helse =>
            .ok (.ifElse hcondition hthen helse)
      · refine (conditionOf_uncommented h).bind ?_
        rintro _ condition ⟨rfl, hcondition⟩
        exact (ofField_uncommentedAll true .body children hbelow).bind fun _ _ hbody =>
          .ok (.whileLoop hcondition hbody)
      · refine (conditionOf_uncommented h).bind ?_
        rintro _ condition ⟨rfl, hcondition⟩
        exact (ofField_uncommentedAll true .body children hbelow).bind fun _ _ hbody =>
          .ok (.doLoop hcondition hbody)
      · obtain ⟨hinitializer, hcondition, hincrement⟩ := ForClauses.bare_ofNode h
        exact (ofField_uncommentedAll true .body children hbelow).bind fun _ _ hbody =>
          .ok (.forLoop hinitializer hcondition hincrement hbody)
      · exact ofJump_uncommented h inLoop .leave
      · exact ofJump_uncommented h inLoop .again
      · exact .ok ⟨rfl, fun _ hvalue => h.firstNamed? hvalue⟩
      · exact .error _

theorem ofNamed_uncommentedAll (inLoop : Bool) : ∀ nodes : List Node,
    BareComments (nodesAll nodes) →
      SameEnd Uncomments (ofNamed inLoop (uncommentedAll nodes)) (ofNamed inLoop nodes)
  | [], _ => by
      rw [uncommentedAll, ofNamed]
      exact .ok uncomments_skip
  | child :: rest, h => by
      have ih := ofNamed_uncommentedAll inLoop rest h.rest
      rw [uncommentedAll]
      split
      · rename_i hcomment
        rw [ofNamed, ofNode_of_isComment inLoop hcomment]
        split
        · exact ih.bind_right fun _ _ hrest => hrest.skip_seq
        · exact ih
      · rw [ofNamed, ofNamed, isNamed_uncommented]
        split
        · have hchild := ofNode_uncommented inLoop child h.first
          exact hchild.bind fun _ _ hfirst => ih.bind fun _ _ hrest => .ok (hfirst.seq hrest)
        · exact ih

theorem ofField_uncommentedAll (inLoop : Bool) (field : Field) : ∀ nodes : List Node,
    BareComments (nodesAll nodes) →
      SameEnd Uncomments (ofField inLoop field (uncommentedAll nodes)) (ofField inLoop field nodes)
  | [], _ => by
      rw [uncommentedAll, ofField]
      exact .ok uncomments_skip
  | child :: rest, h => by
      have ih := ofField_uncommentedAll inLoop field rest h.rest
      rw [uncommentedAll]
      split
      · rename_i hcomment
        rw [ofField, h.carries List.mem_cons_self hcomment]
        exact ih
      · rw [ofField, ofField, carries_uncommented]
        split
        · exact ofNode_uncommented inLoop child h.first
        · exact ih

theorem ofElse_uncommentedAll (inLoop : Bool) : ∀ nodes : List Node,
    BareComments (nodesAll nodes) →
      SameEnd Uncomments (ofElse inLoop (uncommentedAll nodes)) (ofElse inLoop nodes)
  | [], _ => by
      rw [uncommentedAll, ofElse]
      exact .ok uncomments_skip
  | child :: rest, h => by
      have ih := ofElse_uncommentedAll inLoop rest h.rest
      rw [uncommentedAll]
      split
      · rename_i hcomment
        rw [ofElse, h.carries List.mem_cons_self hcomment]
        exact ih
      · rw [ofElse, ofElse, carries_uncommented, kind_uncommented]
        split
        · split
          · exact ofClause_uncommented inLoop child h.first
          · exact ofNode_uncommented inLoop child h.first
        · exact ih

theorem ofClause_uncommented (inLoop : Bool) : ∀ node : Node, BareComments node.nodes →
    SameEnd Uncomments (ofClause inLoop node.uncommented) (ofClause inLoop node)
  | .mk site children, h => by
      rw [uncommented, ofClause, ofClause]
      exact ofFirst_uncommentedAll inLoop children h.below

theorem ofFirst_uncommentedAll (inLoop : Bool) : ∀ nodes : List Node,
    BareComments (nodesAll nodes) →
      SameEnd Uncomments (ofFirst inLoop (uncommentedAll nodes)) (ofFirst inLoop nodes)
  | [], _ => by
      rw [uncommentedAll, ofFirst]
      exact .ok uncomments_skip
  | child :: rest, h => by
      have ih := ofFirst_uncommentedAll inLoop rest h.rest
      rw [uncommentedAll]
      split
      · rename_i hcomment
        rw [ofFirst, isContent_of_isComment hcomment]
        exact ih
      · rw [ofFirst, ofFirst, isContent_uncommented]
        split
        · exact ofNode_uncommented inLoop child h.first
        · exact ih

end

/-- The graph without comments is the one with comments, apart from those inside of nodes. -/
theorem Uncomments.graph (h : first.Uncomments first') :
    first.graph = first'.graph.mapNodes uncommented := by
  have hadd := Draft.mapNodes_add uncommented first' none Draft.start
  rw [Draft.mapNodes_start, ← h.add] at hadd
  exact congrArg Draft.graph hadd.symm

end Statement

end DefUse
