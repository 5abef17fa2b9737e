/-
# `Diagram.Mermaid` — diagrams as flowchart text

One line per node and per edge after a heading.  A node's text is its label, the
lines of its body and its exit, with a break between them; quotes are written as
an entity, since the text stands in quotes.  A node that branches is a diamond.
-/
import DefUse.Diagram.Basic
import DefUse.Text.Affix
import DefUse.Text.Lines

namespace DefUse

/-- A character of a node's text. -/
def DiagramNode.escapeChar (c : Char) : String :=
  if c = '"' then "#quot;" else String.singleton c

/-- The text of a node. -/
def DiagramNode.text (node : DiagramNode) : String :=
  let parts := "<br/>".intercalate ([node.label] ++ Text.lines node.body ++ [node.exit])
  String.join (parts.toList.map DiagramNode.escapeChar)

/-- The line of a node. -/
def DiagramNode.mermaid (node : DiagramNode) : String :=
  let name := "    N" ++ toString node.id
  if Text.startsIn "if " node.exit then name ++ "\x7b\"" ++ node.text ++ "\"\x7d"
  else name ++ "[\"" ++ node.text ++ "\"]"

/-- The arrow of an edge: solid for control, dotted for a dependency. -/
def EdgeLabel.arrow : EdgeLabel → String
  | control .jump => " --> "
  | control kind => " -->|" ++ kind.name ++ "| "
  | depends => " -.->|depends| "

/-- The line of an edge. -/
def DiagramEdge.mermaid (edge : DiagramEdge) : String :=
  "    N" ++ toString edge.source ++ edge.label.arrow ++ "N" ++ toString edge.target

/-- The flowchart text of a diagram. -/
def Diagram.mermaid (diagram : Diagram) : String :=
  "\n".intercalate
    (["flowchart TD"] ++ diagram.nodes.map DiagramNode.mermaid ++
      diagram.edges.map DiagramEdge.mermaid)

end DefUse
