/-
# `Program` — a source with its syntax tree

A program is a source text, the dialect it was read in and its tree.  The tree
holds nothing broken when it is accepted, and it is numbered, so that no two of
its sites are equal.

The analyses look at one list of statements, the *entry*: the whole source, or,
if the source is nothing but one function declaration, the body of that function.
-/
import DefUse.Error
import DefUse.Text.Bytes
import DefUse.Tree.Node

namespace DefUse

open DefUse.Tree

/-- The grammar a source is read with. -/
inductive Dialect where
  | typescript
  | javascript
deriving DecidableEq, Inhabited

/-- The name of the dialect. -/
def Dialect.name : Dialect → String
  | typescript => "typescript"
  | javascript => "javascript"

/-- The dialect with a given name. -/
def Dialect.ofName? : String → Option Dialect
  | "typescript" => some typescript
  | "javascript" => some javascript
  | _ => none

/-- A source with its syntax tree. -/
structure Program where
  source : String
  dialect : Dialect
  root : Node
  /-- No two nodes have one number. -/
  distinct : root.ids.Nodup

/-- Where an analysis begins. -/
structure Entry where
  /-- The node whose named children are the statements. -/
  body : Node
  /-- The function whose body it is, if the source is one function declaration. -/
  function : Option Node

namespace Program

/-- Takes the tree that a parser made of a source, if nothing in it is broken. -/
def parse (source : String) (dialect : Dialect) (tree : Option Node) :
    Except AnalysisError Program :=
  match tree with
  | none => .error .noTree
  | some root =>
    match root.firstBroken? with
    | some site => .error (.brokenSource (site.row + 1) (site.column + 1))
    | none => .ok ⟨source, dialect, root.number 0, root.nodup_ids_number 0⟩

/-- The statements the analyses start from. -/
def entry (program : Program) : Entry :=
  match program.root.namedChildren.filter (fun node => !node.isComment) with
  | [only] =>
    if only.kind = .functionDeclaration then
      match only.field? .body with
      | some body => ⟨body, some only⟩
      | none => ⟨program.root, none⟩
    else ⟨program.root, none⟩
  | _ => ⟨program.root, none⟩

/-- The source text at a site. -/
def text (program : Program) (site : Site) : String :=
  Text.slice program.source site.start site.stop

end Program

end DefUse
