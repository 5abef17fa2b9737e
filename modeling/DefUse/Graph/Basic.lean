/-
# `Graph.Basic` — control flow graphs

A graph is an array of blocks with an entry.  Only the blocks reachable from
the entry count; they are enumerated breadth first, a true branch before a false
one (`Graph.order`).  Each block lists its parents, a derived piece of
information: `Graph.setParents` computes it from the exits, and `Graph.defect?`
checks it.
-/
import DefUse.Graph.Block

namespace DefUse

open DefUse.Tree

/-- A control flow graph. -/
structure Graph where
  blocks : Array Block
  entry : BlockId
  /-- How many blocks were numbered so far. -/
  counter : Nat
deriving Inhabited

namespace Graph

/-- The block with an index. -/
def block? (graph : Graph) (id : BlockId) : Option Block :=
  graph.blocks[id]?

/-- The exit of a block. -/
def exitOf (graph : Graph) (id : BlockId) : Exit :=
  match graph.block? id with
  | some block => block.exit
  | none => .unset

/-- The label of a block. -/
def labelOf (graph : Graph) (id : BlockId) : String :=
  match graph.block? id with
  | some block => block.label
  | none => ""

/-- The blocks that may come after a block. -/
def successors (graph : Graph) (id : BlockId) : List BlockId :=
  (graph.exitOf id).successors

/-! ## Breadth-first order -/

/-- How many blocks are not listed yet. -/
def unlisted (graph : Graph) (order : List BlockId) : Nat :=
  (List.range graph.blocks.size).countP fun id => !order.contains id

theorem countP_lt_countP {p q : Nat → Bool} {a : Nat} :
    ∀ {xs : List Nat}, (∀ x, p x = true → q x = true) → a ∈ xs → p a = false → q a = true →
      xs.countP p < xs.countP q
  | [], _, h, _, _ => by simp at h
  | x :: xs, hpq, h, hp, hq => by
    have hle : xs.countP p ≤ xs.countP q := List.countP_mono_left fun x _ hx => hpq x hx
    rcases List.mem_cons.mp h with rfl | h
    · rw [List.countP_cons_of_neg (by simp [hp]), List.countP_cons_of_pos (by simp [hq])]
      omega
    · have ih := countP_lt_countP hpq h hp hq
      rw [List.countP_cons, List.countP_cons]
      have hx := hpq x
      by_cases h1 : p x = true
      · simp only [h1, hx h1, if_true]
        omega
      · simp only [h1]
        exact Nat.lt_of_lt_of_le ih (Nat.le_add_right _ _)

/-- Listing one more block leaves fewer to list. -/
theorem unlisted_append_lt {graph : Graph} {order : List BlockId} {id : BlockId}
    (hid : id < graph.blocks.size) (hnew : order.contains id = false) :
    graph.unlisted (order ++ [id]) < graph.unlisted order := by
  apply countP_lt_countP (a := id)
  · intro x hx
    simp only [List.contains_eq_mem, Bool.not_eq_true', decide_eq_false_iff_not] at hx ⊢
    intro hmem
    exact hx (List.mem_append_left _ hmem)
  · exact List.mem_range.mpr hid
  · simp
  · simpa using hnew

/-- Lists the blocks reachable from those in the queue, after those already in
`order`.  A block is listed when it is first taken from the queue. -/
def enumerate (graph : Graph) (queue order : List BlockId) : List BlockId :=
  match queue with
  | [] => order
  | id :: rest =>
    if order.contains id then enumerate graph rest order
    else if id < graph.blocks.size then
      let listed := order ++ [id]
      let next := (graph.successors id).filter fun next => !listed.contains next
      enumerate graph (rest ++ next) listed
    else enumerate graph rest order
termination_by (graph.unlisted order, queue.length)
decreasing_by
  · exact Prod.Lex.right _ (by simp)
  · rename_i hnew hid
    exact Prod.Lex.left _ _ (unlisted_append_lt hid (by simpa using hnew))
  · exact Prod.Lex.right _ (by simp)

/-- The reachable blocks, breadth first from the entry. -/
def order (graph : Graph) : List BlockId :=
  graph.enumerate [graph.entry] []

/-- The reachable blocks themselves, in that order. -/
def reachable (graph : Graph) : List Block :=
  graph.order.filterMap graph.block?

/-- The reachable block with a label. -/
def find? (graph : Graph) (label : String) : Option Block :=
  graph.reachable.find? fun block => block.label = label

/-- How many statements the reachable blocks hold. -/
def statementCount (graph : Graph) : Nat :=
  (graph.reachable.flatMap Block.statements).length

/-- The reachable block that holds the source at a site. -/
def blockContaining? (graph : Graph) (site : Site) : Option BlockId :=
  graph.order.find? fun id => (graph.block? id).any (Block.owns site)

/-! ## Parents -/

/-- The blocks of a list that have an edge to `id`, in ascending order. -/
def parentsAmong (graph : Graph) (order : List BlockId) (id : BlockId) : List BlockId :=
  (List.range graph.blocks.size).filter fun parent =>
    (graph.successors parent).contains id && order.contains parent

/-- The graph with the parents of every block computed anew. -/
def setParents (graph : Graph) : Graph :=
  let order := graph.order
  { graph with
    blocks := graph.blocks.mapIdx fun id block =>
      { block with parents := graph.parentsAmong order id } }

/-- Is `parent` a reachable block with an edge to `id`? -/
def isParent (graph : Graph) (order : List BlockId) (parent id : BlockId) : Bool :=
  order.contains parent && (graph.successors parent).contains id

/-- What is wrong with one reachable block: its exit is unset, an edge's target
does not know it, or it lists a parent that is none. -/
def defectAt? (graph : Graph) (order : List BlockId) (id : BlockId) : Option Defect :=
  match graph.block? id with
  | none => none
  | some block =>
    if block.exit.isUnset then some (.unsetEnd block.label)
    else
      let missing := block.exit.edges.find? fun edge =>
        !(graph.block? edge.2).any fun next => next.parents.contains id
      match missing with
      | some (kind, next) => some (.missingParent (graph.labelOf next) block.label kind)
      | none =>
        let stray := block.parents.find? fun parent => !graph.isParent order parent id
        stray.map fun parent => .strayParent block.label (graph.labelOf parent)

/-- The first defect of the graph, in the order of its reachable blocks. -/
def defect? (graph : Graph) : Option Defect :=
  let order := graph.order
  order.findSome? (graph.defectAt? order)

/-- The graph, if it has no defect. -/
def validate (graph : Graph) : Except AnalysisError Graph :=
  match graph.defect? with
  | some defect => .error (.inconsistent defect)
  | none => .ok graph

/-- The graph with its parents computed anew, if it has no defect. -/
def refresh (graph : Graph) : Except AnalysisError Graph :=
  graph.setParents.validate

/-! ## Changes -/

/-- Adds a block with a given label; its index is the old number of blocks. -/
def addLabeled (label : String) (exit : Exit) (graph : Graph) : Graph :=
  { graph with blocks := graph.blocks.push ⟨graph.blocks.size, label, [], exit, []⟩ }

/-- Adds a block whose label is a word with the next free number. -/
def add (word : String) (exit : Exit) (graph : Graph) : Graph :=
  { graph.addLabeled (word ++ toString (graph.counter + 1)) exit with
    counter := graph.counter + 1 }

/-- Changes one block. -/
def modify (id : BlockId) (f : Block → Block) (graph : Graph) : Graph :=
  { graph with blocks := graph.blocks.modify id f }

/-- Gives a block an exit. -/
def setExit (id : BlockId) (exit : Exit) (graph : Graph) : Graph :=
  graph.modify id fun block => { block with exit := exit }

/-- Adds statements at the end of a block. -/
def append (id : BlockId) (statements : List Node) (graph : Graph) : Graph :=
  graph.modify id fun block => { block with statements := block.statements ++ statements }

end Graph

end DefUse
