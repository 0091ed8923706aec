import Assembler6502.Arena
import Assembler6502.Pass.Selection

/-!
# Sweeps

One pass over a program. The program lies in an arena, which the pass walks along the numbers of the
nodes: it reads the children of a sequence once, when it comes to the sequence, and it overwrites
statements where they lie. The extension of branches overwrites a branch and then walks the same
number again, so that what lies there now is visited, too.

A program can also be kept as a tree, and a pass over a tree puts what its visits return in the
place of the statements. The passes are made for both.

## Main definitions

* `Tour`, `Tour.walk`: the state of a pass over an arena, and the walk along the numbers
* `Action.ofVisit`: puts what a visit returns into the arena
* `Pass.rewriteBranches`: replaces branches that do not reach their targets, in an arena
* `Sweepable`: ways to keep a program that passes can go over
* `Workspace.sweep`, `Workspace.sweepBranches`: one pass
-/

namespace Assembler6502

/-! ## Arenas -/

/-- The state of a pass over an arena: the context, whether anything has changed, what the pass
itself keeps in mind, and the arena. -/
structure Tour (μ : Type) where
  context : Context
  changed : Bool := false
  memory : μ
  arena : Arena

/-- What a pass does at a statement of an arena. Where it walks nodes itself it may have no
result. -/
abbrev Action (μ : Type) := Tour μ → Nat → Statement → Option (Tour μ)

namespace Tour

variable {μ : Type}

/-- The state without the nodes, but with their number. -/
def sweep (t : Tour μ) : Sweep μ :=
  { context := t.context, size := t.arena.size, changed := t.changed, memory := t.memory }

/-- The state with some nodes. -/
def ofSweep (s : Sweep μ) (arena : Arena) : Tour μ :=
  { context := s.context, changed := s.changed, memory := s.memory, arena }

/-- Acts at the statements from a number on, in order, and gets at most `fuel` nodes deep. The
children of a sequence are those that it has when the walk comes to it. -/
def walk (action : Action μ) : Nat → Tour μ → Nat → Option (Tour μ)
  | 0, _, _ => none
  | fuel + 1, t, id =>
    match t.arena.get? id with
    | none => none
    | some (.statement st) => action t id st
    | some (.sequence _ children) => children.foldlM (walk action fuel) t

end Tour

/-- Puts the node that a visit returns in the place of the statement. -/
def Action.ofVisit {μ : Type} (visit : Visit μ) : Action μ := fun t id st =>
  let (s, node) := visit t.sweep id st
  some (.ofSweep s (t.arena.put id node))

namespace Pass

/-- Overwrites a branch and walks what lies there now. Inside of such a walk this would go on
without end, so it is not done there. -/
def overwrite (again : Option (Tour Unit → Nat → Option (Tour Unit))) (s : Sweep Unit)
    (arena : Arena) (id : Nat) (st : Statement) (branch : Mnemonic) (cell : Cell) :
    Option (Tour Unit) :=
  match again with
  | none => some (.ofSweep (s.error st.location (.pass (.endlessExtension branch))) arena)
  | some walk => walk (.ofSweep s (arena.set id cell)) id

/-- Replaces a branch that does not reach its target: one that is always taken by a jump, and
another one by a sequence of two new nodes. -/
def rewriteBranch (again : Option (Tour Unit → Nat → Option (Tour Unit))) : Action Unit :=
  fun t id st =>
    match st.item.branch? with
    | none => some (.ofSweep (t.sweep.mapContext (·.follow st)) t.arena)
    | some (branch, target) =>
      let (v, s) := t.sweep.valueOf st.location target
      let jump := Cell.statement (inPlace st (jumpTo target))
      if fitsByte (displacement v s.context.env.pc) then
        some (.ofSweep (s.mapEnv (·.advancePc 2)) t.arena)
      else if branch = .bra then
        overwrite again (s.warn st.location (.branchReplacedWithJump branch)).setChanged t.arena id
          st branch jump
      else
        match branch.inverse? with
        | none => some (.ofSweep (s.mapEnv (·.advancePc 2)) t.arena)
        | some inverse =>
          let skip := Cell.statement (inPlace st (skippingBranch inverse))
          let first := t.arena.size
          overwrite again (s.warn st.location (.branchExtended branch inverse)).setChanged
            ((t.arena.push skip).push jump) id st branch (.sequence st.location [first, first + 1])

/-- Replaces branches that do not reach their targets. In the place of a branch there are at most
three nodes. -/
def rewriteBranches : Action Unit :=
  rewriteBranch (some (Tour.walk (rewriteBranch none) 3))

end Pass

/-- One pass over an arena. A walk without a result, which a tree does not have, leaves everything
as it is. -/
def Arena.sweep {μ : Type} (w : Workspace Arena) (memory : μ) (action : Action μ)
    (close : Context → Context) : Workspace Arena × Bool × μ :=
  let start : Tour μ := { context := w.context.restart, memory, arena := w.program }
  let t := (start.walk action w.program.size 0).getD start
  (⟨t.arena, (close t.context).restart⟩, t.changed, t.memory)

/-! ## Trees -/

/-- One pass over a tree. -/
def Program.sweep {μ : Type} (w : Workspace) (memory : μ) (visit : Visit μ)
    (close : Context → Context) : Workspace × Bool × μ :=
  let start : Sweep μ := { context := w.context.restart, size := w.program.size, memory }
  let (s, children) := Node.traverseAll visit start w.program.children
  (⟨⟨children, s.size⟩, (close s.context).restart⟩, s.changed, s.memory)

/-! ## Passes -/

/-- A way to keep a program that passes can go over: one pass with a visit, and the extension of
branches, which comes back to what it has put in the place of a branch. -/
class Sweepable (π : Type) where
  sweep {μ : Type} (w : Workspace π) (memory : μ) (visit : Visit μ) (close : Context → Context) :
    Workspace π × Bool × μ
  sweepBranches (w : Workspace π) : Workspace π × Bool × Unit

instance : Sweepable Arena where
  sweep w memory visit close := Arena.sweep w memory (.ofVisit visit) close
  sweepBranches w := Arena.sweep w () Pass.rewriteBranches id

instance : Sweepable Program where
  sweep := Program.sweep
  sweepBranches w := Program.sweep w () Pass.extendBranches id

namespace Workspace

variable {π : Type} [Sweepable π]

/-- One pass: the workspace behind it, whether anything has changed, and what the pass has in mind
at its end. -/
def sweep {μ : Type} (w : Workspace π) (memory : μ) (visit : Visit μ)
    (close : Context → Context) : Workspace π × Bool × μ :=
  Sweepable.sweep w memory visit close

/-- The pass that replaces branches that do not reach their targets. -/
def sweepBranches (w : Workspace π) : Workspace π × Bool × Unit :=
  Sweepable.sweepBranches w

end Workspace
end Assembler6502
