import Assembler6502.Program

/-!
# Arenas

The nodes of a program lie side by side in an arena, and the number of a node is its place there. A
sequence names its children by their numbers, and the node with number zero is the root. Nodes are
added at the end, and a node that is replaced is overwritten where it lies, so it keeps its number.

Nothing in an arena keeps two sequences from naming the same child, or a sequence from being below
itself. So a walk along the numbers is given a depth, and has no result if it gets deeper than that
or comes to a number without a node.

## Main definitions

* `Cell`, `Arena`: a node without the nodes below it, and nodes side by side
* `Arena.push`, `Arena.set`: adds a node, and overwrites one
* `Arena.enter`, `Arena.put`: adds a tree, and puts one in the place of a node
* `Arena.nodes`: the nodes in the order in which a walk meets them
* `Arena.leaves`, `Arena.dump`: the statements in order, and a drawing of the tree
-/

namespace Assembler6502

/-- A node without the nodes below it: a statement, or a sequence of nodes that are named by their
numbers. -/
inductive Cell where
  | statement (statement : Statement)
  | sequence (location : Location) (children : List Nat)

namespace Cell

/-- The statement of a node that is one. -/
def statement? : Cell → Option Statement
  | statement st => some st
  | sequence _ _ => none

/-- The children of a node. A statement has none. -/
def children : Cell → List Nat
  | statement _ => []
  | sequence _ children => children

/-- The line of a node in a drawing. -/
def line (depth : Nat) : Cell → String
  | statement st =>
    "".pushn ' ' (2 * depth) ++ st.location.text ++ ": " ++ st.item.text ++ "\n"
  | sequence location children =>
    "".pushn ' ' (2 * depth) ++ location.text ++ ": " ++ Fragment.sequenceText children.length ++
      "\n"

end Cell

/-- The number of a node. -/
def Node.number : Node → Nat
  | leaf id _ => id
  | sequence id _ _ => id

/-- Nodes side by side. At first there is the root, which has no children. -/
structure Arena where
  cells : Array Cell := #[.sequence .topLevel []]

namespace Arena

/-- How many nodes there are. The next one gets this number. -/
def size (a : Arena) : Nat :=
  a.cells.size

/-- The node with a number. -/
def get? (a : Arena) (id : Nat) : Option Cell :=
  a.cells[id]?

/-- Adds a node. -/
def push (a : Arena) (cell : Cell) : Arena :=
  ⟨a.cells.push cell⟩

/-- Overwrites a node. -/
def set (a : Arena) (id : Nat) (cell : Cell) : Arena :=
  ⟨a.cells.setIfInBounds id cell⟩

mutual

/-- Adds a node with the nodes below it, a sequence behind its parts. -/
def enter (a : Arena) : Node → Arena
  | .leaf _ statement => a.push (.statement statement)
  | .sequence _ location children =>
    (enterAll a children).push (.sequence location (children.map Node.number))

/-- Adds nodes in order. -/
def enterAll (a : Arena) : List Node → Arena
  | [] => a
  | node :: rest => enterAll (enter a node) rest

end

/-- Puts a node in the place of another one, which is overwritten. The nodes below it are added. -/
def put (a : Arena) (id : Nat) : Node → Arena
  | .leaf _ statement => a.set id (.statement statement)
  | .sequence _ location children =>
    (a.enterAll children).set id (.sequence location (children.map Node.number))

/-- The arena of the root and the given nodes below it. -/
def ofFragments (parts : List Fragment) : Arena :=
  ({} : Arena).put 0 (.sequence 0 .topLevel (Node.ofFragments 1 parts).1)

/-- The nodes from a number on, in the order in which a walk meets them, each with its depth. The
walk gets at most `fuel` nodes deep. -/
def nodesFrom (a : Arena) : Nat → Nat → Nat → Option (List (Nat × Nat × Cell))
  | 0, _, _ => none
  | fuel + 1, depth, id => do
    let cell ← a.get? id
    let below ← cell.children.mapM (nodesFrom a fuel (depth + 1))
    return (depth, id, cell) :: below.flatten

/-- The nodes in the order in which a walk meets them. No path without a repetition is longer than
there are nodes. -/
def nodes (a : Arena) : Option (List (Nat × Nat × Cell)) :=
  a.nodesFrom a.size 0 0

/-- The statements in the order in which they take effect, with their numbers. -/
def leaves (a : Arena) : Option (List (Nat × Statement)) :=
  a.nodes.map (·.filterMap fun (_, id, cell) => cell.statement?.map (id, ·))

/-- A drawing of the tree, one node a line. -/
def dump (a : Arena) : Option String :=
  a.nodes.map fun nodes => String.join (nodes.map fun (depth, _, cell) => cell.line depth)

end Arena
end Assembler6502
