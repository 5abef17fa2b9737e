/-
# `Tree.Row` — syntax trees as tables

A parser hands a tree over as a table: one row per node, in pre-order, each
with the index of its parent's row.  `Node.ofRows?` puts the tree together.
Going through the table from its end, the nodes that still wait for their
parent are kept in order; a row takes those that name it, and waits in turn.
-/
import DefUse.Tree.Node

namespace DefUse.Tree

/-- One node of a tree as a line of a table. -/
structure Row where
  /-- Index of the parent's row; negative for the root. -/
  parent : Int
  kind : String
  /-- Letters: `n` named, `h` holds something broken, `e` error, `m` missing. -/
  flags : String
  start : Nat
  stop : Nat
  row : Nat
  column : Nat
  /-- The roles of the node below its parent, with commas between them. -/
  fields : String

namespace Row

/-- What the row says of its node. -/
def site (id : Nat) (row : Row) : Site where
  id := id
  kind := Kind.ofName row.kind
  named := row.flags.toList.contains 'n'
  hasError := row.flags.toList.contains 'h'
  isError := row.flags.toList.contains 'e'
  isMissing := row.flags.toList.contains 'm'
  start := row.start
  stop := row.stop
  row := row.row
  column := row.column
  fields := (row.fields.splitOn ",").filterMap Field.ofName?

/-- Reads a row from a line with tabs between the eight entries. -/
def ofLine? (line : String) : Option Row := do
  match line.splitOn "\t" with
  | [parent, kind, flags, start, stop, row, column, fields] =>
    return {
      parent := ← parent.toInt?
      kind := kind
      flags := flags
      start := ← start.toNat?
      stop := ← stop.toNat?
      row := ← row.toNat?
      column := ← column.toNat?
      fields := fields }
  | _ => none

end Row

namespace Node

/-- Nodes that wait for the row of their parent, in document order. -/
abbrev Waiting := List (Int × Node)

/-- One row takes its children from the waiting nodes and waits itself. -/
def takeRow (entry : Row × Nat) (waiting : Waiting) : Waiting :=
  let (row, index) := entry
  let (below, others) := waiting.partition fun node => node.1 == Int.ofNat index
  (row.parent, mk (row.site index) (below.map Prod.snd)) :: others

/-- The tree of a table: the first row without a parent, with all below it. -/
def ofRows? (rows : List Row) : Option Node :=
  let waiting := rows.zipIdx.foldr takeRow []
  (waiting.find? fun node => node.1 < 0).map Prod.snd

/-- The tree of a table written with one row on a line. -/
def ofTable? (text : String) : Option Node := do
  let lines := (text.splitOn "\n").filter (· ≠ "")
  ofRows? (← lines.mapM Row.ofLine?)

end Node

end DefUse.Tree
