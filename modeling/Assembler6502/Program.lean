import Assembler6502.Fragment

/-!
# Programs

A program is a tree of statements. Every source file and every expanded macro is a sequence of its
own, so the tree shows where statements came from, while the order of its leaves is the order in
which they take effect. Nodes are numbered as they are made: the numbers tell two statements with
the same text apart, and replacing a node keeps its number.

## Main definitions

* `Node`: a statement or a sequence of nodes
* `Node.ofFragment`, `Node.ofFragments`: numbers parts of a program
* `Program`: the tree below the root, and the numbers given out
* `Program.ofFragments`: the program with given parts
* `Node.traverse`: visits the statements in order, with a state, and replaces each
* `Program.leaves`: the statements in order
-/

namespace Assembler6502

/-- A statement or a sequence of nodes, with its number. -/
inductive Node where
  | leaf (id : Nat) (statement : Statement)
  | sequence (id : Nat) (location : Location) (children : List Node)
  deriving Inhabited

namespace Node

mutual

/-- The node of a fragment, and the next number, when the numbers below `size` are given out. A
sequence is made after its parts. -/
def ofFragment (size : Nat) : Fragment → Node × Nat
  | .statement statement => (leaf size statement, size + 1)
  | .sequence location parts =>
    let (children, size) := ofFragments size parts
    (sequence size location children, size + 1)

/-- The nodes of fragments, numbered in order, and the next number. -/
def ofFragments (size : Nat) : List Fragment → List Node × Nat
  | [] => ([], size)
  | part :: rest =>
    let (node, size) := ofFragment size part
    let (nodes, size) := ofFragments size rest
    (node :: nodes, size)

end

mutual

/-- Visits the statements of a node in order and puts what the visits return in their place. -/
def traverse {σ : Type} (visit : σ → Nat → Statement → σ × Node) : σ → Node → σ × Node
  | s, leaf id statement => visit s id statement
  | s, sequence id location children =>
    let (s, children) := traverseAll visit s children
    (s, sequence id location children)

/-- Visits the statements of a list of nodes in order. -/
def traverseAll {σ : Type} (visit : σ → Nat → Statement → σ × Node) :
    σ → List Node → σ × List Node
  | s, [] => (s, [])
  | s, node :: rest =>
    let (s, node) := traverse visit s node
    let (s, rest) := traverseAll visit s rest
    (s, node :: rest)

end

mutual

/-- The statements of a node in order, with their numbers. -/
def leaves : Node → List (Nat × Statement)
  | leaf id statement => [(id, statement)]
  | sequence _ _ children => leavesAll children

/-- The statements of a list of nodes in order, with their numbers. -/
def leavesAll : List Node → List (Nat × Statement)
  | [] => []
  | node :: rest => leaves node ++ leavesAll rest

end

end Node

/-- A program: the nodes below the root, and how many numbers are given out. The root is a sequence
and has number zero. -/
structure Program where
  children : List Node := []
  size : Nat := 1
  deriving Inhabited

namespace Program

/-- The program with given parts. -/
def ofFragments (parts : List Fragment) : Program :=
  let (children, size) := Node.ofFragments 1 parts
  { children, size }

/-- The root of the tree. -/
def root (p : Program) : Node :=
  .sequence 0 .topLevel p.children

/-- The statements in the order in which they take effect, with their numbers. -/
def leaves (p : Program) : List (Nat × Statement) :=
  p.root.leaves

/-- The instructions in the order in which they take effect. -/
def instructions (p : Program) : List Instruction :=
  p.leaves.filterMap fun (_, statement) =>
    match statement.item with
    | .instruction i => some i
    | _ => none

end Program

end Assembler6502
