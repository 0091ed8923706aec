import Assembler6502.Image
import Assembler6502.Pass.Expansion
import Assembler6502.Pass.Resolution
import Assembler6502.Pass.Sweep

/-!
# Stages

Assembling is a list of stages. A stage is a pass, or a group of stages that is repeated until its
last member reports no change. A stage does nothing once there is a fault, so nothing runs after
the pass that found it. What a pass keeps in mind from round to round belongs to its place in the
group.

## Main definitions

* `Pass.Kind`: the passes
* `Stage`: a pass, or a group that is repeated until nothing changes
* `Stage.run`: runs a stage
* `Stage.pipeline`: the stages of assembling, up to the last pass
-/

namespace Assembler6502

/-- The passes. -/
inductive Pass.Kind where
  | defineMacros
  | expandMacros
  | initLabels
  | checkCircularity
  | checkExpressions
  | easyModes
  | updateLabels
  | collapse
  | extendBranches
  | normalizeModes
  | emit
  deriving DecidableEq, Repr

/-- The largest number of rounds of a group. -/
def Stage.maxRounds : Nat := 100

/-- A pass, or a group of stages that is repeated until the last of them reports no change, at most
`rounds` times. -/
inductive Stage where
  | pass (kind : Pass.Kind)
  | fixpoint (name : String) (stages : List Stage) (rounds : Nat := Stage.maxRounds)

/-- What the passes of a stage keep in mind from round to round. -/
inductive Stage.Memory where
  | pass (discovery : Discovery)
  | group (members : List Stage.Memory)

namespace Stage.Memory

/-- Nothing is in mind yet. -/
def fresh : Stage.Memory :=
  .pass {}

def discovery : Stage.Memory → Discovery
  | .pass d => d
  | .group _ => {}

def members : Stage.Memory → List Stage.Memory
  | .pass _ => []
  | .group ms => ms

end Stage.Memory

namespace Workspace

variable {π : Type} [Sweepable π]

/-- The last pass, with the image that it makes. Nothing is written once there is a fault. -/
def emit (w : Workspace π) : Workspace π × Bool × Image :=
  if w.context.hasErrors then (w, false, {}) else w.sweep ({} : Image) Pass.emit id

/-- Runs a pass and reports whether anything has changed. Nothing happens once there is a fault.
Only the discovery of labels keeps something in mind from round to round. -/
def runPass (w : Workspace π) (kind : Pass.Kind) (d : Discovery) :
    Workspace π × Bool × Discovery :=
  if w.context.hasErrors then (w, false, d)
  else
    match kind with
    | .defineMacros => keep (w.sweep false Pass.defineMacros Pass.closeDefinition)
    | .expandMacros => keep (w.sweep () Pass.expandMacros id)
    | .initLabels => w.sweep d.nextRound Pass.initLabels id
    | .checkCircularity => keep (w.sweep true Pass.checkCircularity id)
    | .checkExpressions => keep (w.sweep () Pass.checkExpressions id)
    | .easyModes => keep (w.sweep () Pass.easyModes id)
    | .updateLabels => keep (w.sweep () Pass.updateLabels id)
    | .collapse => keep (w.sweep () Pass.collapse id)
    | .extendBranches => keep w.sweepBranches
    | .normalizeModes => keep (w.sweep () Pass.normalizeModes id)
    | .emit => keep (w.sweep ({} : Image) Pass.emit id)
where
  /-- Drops what a pass had in mind and keeps what was in mind before. -/
  keep {μ : Type} : Workspace π × Bool × μ → Workspace π × Bool × Discovery
    | (w, changed, _) => (w, changed, d)

/-- One round of a group. -/
abbrev Round (π : Type := Program) :=
  Workspace π → List Stage.Memory → Workspace π × Bool × List Stage.Memory

/-- Repeats a group until its last member reports no change or there is a fault, at most `rounds`
times. Running out of rounds is a fault. The result tells whether any round but the last changed
something. -/
def iterate (name : String) (round : Round π) : Nat → Bool → Round π
  | 0, changed, w, m =>
    ({ w with context := w.context.error .topLevel (.pass (.noConvergence name)) }, changed, m)
  | rounds + 1, changed, w, m =>
    if w.context.hasErrors then (w, changed, m)
    else
      let (w, last, m) := round w m
      if w.context.hasErrors || !last then (w, changed, m)
      else iterate name round rounds true w m

end Workspace

namespace Stage

variable {π : Type} [Sweepable π]

mutual

/-- Runs a stage and reports whether anything has changed. -/
def run : Stage → Workspace π → Memory → Workspace π × Bool × Memory
  | pass kind, w, m =>
    let (w, changed, d) := w.runPass kind m.discovery
    (w, changed, .pass d)
  | fixpoint name stages rounds, w, m =>
    let (w, changed, ms) :=
      Workspace.iterate name (fun w ms => runAll stages w ms) rounds false w m.members
    (w, changed, .group ms)

/-- Runs stages in order and reports whether the last of them changed anything. -/
def runAll : List Stage → Workspace π → List Memory → Workspace π × Bool × List Memory
  | [], w, _ => (w, false, [])
  | stage :: rest, w, ms =>
    let (w, changed, m) := run stage w (ms.headD .fresh)
    match rest with
    | [] => (w, changed, [m])
    | _ :: _ =>
      let (w, changed, ms) := runAll rest w ms.tail
      (w, changed, m :: ms)

end

/-- Runs a stage for the first time. -/
def go (stage : Stage) (w : Workspace π) : Workspace π × Bool :=
  let (w, changed, _) := stage.run w .fresh
  (w, changed)

/-- The stage in which labels find their places while instructions keep their sizes. -/
def placement : Stage :=
  fixpoint "label update" [pass .updateLabels]

/-- The stage in which instructions find their sizes while branches stay what they are. -/
def sizing : Stage :=
  fixpoint "instruction selection 1" [placement, pass .collapse]

/-- The stages in which labels and instructions find their places. -/
def selection (extend : Bool) : Stage :=
  if extend then fixpoint "instruction selection 2" [sizing, pass .extendBranches] else sizing

/-- The stages in which macros are expanded, labels are found, and modes that do not depend on
labels are settled. -/
def preparation : List Stage := [
  pass .defineMacros,
  fixpoint "macro expansion" [pass .expandMacros],
  fixpoint "label initialization" [pass .initLabels],
  pass .checkCircularity,
  pass .checkExpressions,
  pass .easyModes]

/-- The stages of assembling, up to the last pass. -/
def pipeline (extend : Bool) : List Stage :=
  preparation ++ [selection extend, pass .normalizeModes, pass .updateLabels]

end Stage
end Assembler6502
