/-
# `Error` — why an analysis stops

Every cause is a constructor; the wording is in one place, `message`.
-/

namespace DefUse

/-- How control takes an edge between two blocks. -/
inductive EdgeKind where
  /-- Always. -/
  | jump
  /-- When the condition holds. -/
  | onTrue
  /-- When the condition fails. -/
  | onFalse
deriving DecidableEq, Inhabited

/-- The word for a kind of edge. -/
def EdgeKind.name : EdgeKind → String
  | jump => "jump"
  | onTrue => "then"
  | onFalse => "else"

/-- A graph that contradicts itself.  Blocks are named by their labels. -/
inductive Defect where
  /-- A reachable block has no way out and no end. -/
  | unsetEnd (block : String)
  /-- An edge's source is not listed as a parent of its target. -/
  | missingParent (target parent : String) (edge : EdgeKind)
  /-- A listed parent is unreachable or has no edge to the block. -/
  | strayParent (block parent : String)
deriving DecidableEq, Inhabited

def Defect.message : Defect → String
  | unsetEnd block => "block " ++ block ++ " has an unset transition"
  | missingParent target parent edge =>
    "block " ++ target ++ " (" ++ edge.name ++ ") missing parent " ++ parent
  | strayParent block parent =>
    "block " ++ block ++ " lists " ++ parent ++ " as parent but " ++ parent ++
      " does not target it"

/-- The two statements that leave a loop's body early. -/
inductive LoopJump where
  /-- Go on after the loop. -/
  | leave
  /-- Go on with the next round. -/
  | again
deriving DecidableEq, Inhabited

/-- The keyword of the statement. -/
def LoopJump.keyword : LoopJump → String
  | leave => "break"
  | again => "continue"

/-- Why an analysis stops. -/
inductive AnalysisError where
  /-- The parser gave no tree. -/
  | noTree
  /-- The source is broken at a one-based position. -/
  | brokenSource (line column : Nat)
  /-- A construct outside the analysed part of the language. -/
  | unsupported (construct : String) (line : Nat)
  /-- A `break` or `continue` that no loop encloses. -/
  | noEnclosingLoop (jump : LoopJump) (line : Nat)
  /-- The graph contradicts itself. -/
  | inconsistent (defect : Defect)
deriving DecidableEq, Inhabited

def AnalysisError.message : AnalysisError → String
  | noTree => "parser produced no syntax tree"
  | brokenSource line column =>
    "syntax error at line " ++ toString line ++ ", column " ++ toString column
  | unsupported construct line =>
    "not implemented: " ++ construct ++ " (line " ++ toString line ++ ")"
  | noEnclosingLoop jump line =>
    "`" ++ jump.keyword ++ "` outside of an enclosing loop (line " ++ toString line ++ ")"
  | inconsistent defect => "internal CFG inconsistency: " ++ defect.message

end DefUse
