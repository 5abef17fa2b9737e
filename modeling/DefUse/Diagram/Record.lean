/-
# `Diagram.Record` — diagrams as interchange values
-/
import DefUse.Diagram.Basic
import DefUse.Json

namespace DefUse

def DiagramNode.toJson (node : DiagramNode) : Json :=
  .obj [("id", .num node.id), ("label", .str node.label), ("body", .str node.body),
    ("end", .str node.exit)]

def DiagramEdge.toJson (edge : DiagramEdge) : Json :=
  .obj [("id", .num edge.id), ("source", .num edge.source), ("target", .num edge.target),
    ("label", .str edge.label.name)]

/-- The value of a diagram. -/
def Diagram.toJson (diagram : Diagram) : Json :=
  .obj [("nodes", .arr (diagram.nodes.map DiagramNode.toJson)),
    ("edges", .arr (diagram.edges.map DiagramEdge.toJson))]

def DiagramNode.ofJson? (value : Json) : Option DiagramNode := do
  match ← value.toFields? ["id", "label", "body", "end"] with
  | [id, label, body, exit] =>
    return ⟨← id.toUnsigned?, ← label.toText?, ← body.toText?, ← exit.toText?⟩
  | _ => none

def DiagramEdge.ofJson? (value : Json) : Option DiagramEdge := do
  match ← value.toFields? ["id", "source", "target", "label"] with
  | [id, source, target, label] =>
    let label ← EdgeLabel.ofName? (← label.toChoice?)
    return ⟨← id.toUnsigned?, ← source.toUnsigned?, ← target.toUnsigned?, label⟩
  | _ => none

/-- Reads a diagram off a value. -/
def Diagram.ofJson? (value : Json) : Option Diagram := do
  match ← value.toFields? ["nodes", "edges"] with
  | [nodes, edges] =>
    return ⟨← (← nodes.toElements?).mapM DiagramNode.ofJson?,
      ← (← edges.toElements?).mapM DiagramEdge.ofJson?⟩
  | _ => none

end DefUse
