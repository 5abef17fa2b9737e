/-
# `Yaml.Value` — documents with their texts understood

A document can be taken as a value on its own, before anything is known of the
settings it is meant to hold.  Then every plain text has its meaning, no mapping
may have one key twice, no whole number may need more than 64 bits, and collections
may be nested 128 deep at most.
-/
import DefUse.Yaml.Node
import DefUse.Yaml.Scalar

namespace DefUse.Yaml.Node

/-- The meaning of a text: quoted texts mean themselves. -/
def meaning (plain : Bool) (text : String) : Scalar :=
  if plain then Scalar.ofPlain text else .text text

/-! ## Equal values -/

mutual

/-- Do two nodes have one meaning?  The order of a mapping's entries does not count. -/
def same : Node → Node → Bool
  | scalar plain text, scalar plain' text' => meaning plain text = meaning plain' text'
  | sequence items, sequence items' => sameItems items items'
  | mapping entries, mapping entries' =>
    entries.length = entries'.length && sameEntries entries entries'
  | _, _ => false

def sameItems : List Node → List Node → Bool
  | [], [] => true
  | item :: rest, item' :: rest' => same item item' && sameItems rest rest'
  | _, _ => false

/-- Is every entry of the first list among those of the second? -/
def sameEntries : List (Node × Node) → List (Node × Node) → Bool
  | [], _ => true
  | (key, value) :: rest, entries =>
    (entries.any fun entry => same key entry.1 && same value entry.2) && sameEntries rest entries

end

/-- Has no key a second entry? -/
def distinctKeys : List (Node × Node) → Bool
  | [] => true
  | (key, _) :: rest => !(rest.any fun entry => same key entry.1) && distinctKeys rest

/-! ## Values -/

mutual

/-- How deep collections are nested in the node. -/
def depth : Node → Nat
  | scalar _ _ => 0
  | sequence items => itemsDepth items + 1
  | mapping entries => entriesDepth entries + 1

def itemsDepth : List Node → Nat
  | [] => 0
  | item :: rest => Nat.max (depth item) (itemsDepth rest)

def entriesDepth : List (Node × Node) → Nat
  | [] => 0
  | (key, value) :: rest => Nat.max (Nat.max (depth key) (depth value)) (entriesDepth rest)

end

mutual

/-- Are all keys distinct and all whole numbers in 64 bits? -/
def isProper : Node → Bool
  | scalar plain text => meaning plain text ≠ .huge
  | sequence items => areProper items
  | mapping entries => distinctKeys entries && areEntriesProper entries

def areProper : List Node → Bool
  | [] => true
  | item :: rest => isProper item && areProper rest

def areEntriesProper : List (Node × Node) → Bool
  | [] => true
  | (key, value) :: rest => isProper key && isProper value && areEntriesProper rest

end

/-- The deepest nesting of a value. -/
def maxDepth : Nat :=
  128

/-- Is the node a value on its own? -/
def isValue (node : Node) : Bool :=
  node.depth ≤ maxDepth && node.isProper

end DefUse.Yaml.Node
