import Assembler6502.Source.Reading
import Assembler6502.Stage

/-!
# Assembling

From sources to bytes: the sources are read, the stages run over the program, and the last pass
writes the image.

## Main definitions

* `Options`: the processor, and whether branches are extended
* `Assembly`: the image, the diagnostics and the final values of labels
* `Assembly.ofProgram`, `Assembly.ofSources`: assembling
* `Assembly.compile`: the bytes of a text at an address
-/

namespace Assembler6502

/-- How to assemble. -/
structure Options where
  cpu : Cpu := .mos6502
  /-- Whether branches that do not reach their targets are replaced. -/
  branchExtend : Bool := true
  deriving DecidableEq, Repr

/-- What assembling gives. The bytes are complete if there are no faults. -/
structure Assembly where
  image : Image
  diagnostics : Diagnostics
  environment : Environment

namespace Assembly

variable {π : Type} [Sweepable π]

/-- A program as assembling finds it, with the faults of reading it. -/
def start (options : Options) (program : π) (diagnostics : Diagnostics) : Workspace π :=
  ⟨program, { cpu := options.cpu, diagnostics }⟩

/-- Runs stages in order. -/
def runStages (stages : List Stage) (w : Workspace π) : Workspace π :=
  stages.foldl (fun w stage => (stage.go w).1) w

/-- Assembles a program. -/
def ofProgram (options : Options) (program : π) (diagnostics : Diagnostics) : Assembly :=
  let w := runStages (Stage.pipeline options.branchExtend) (start options program diagnostics)
  let (w, _, image) := w.emit
  ⟨image, w.context.diagnostics, w.context.env⟩

/-- Assembles sources. -/
def ofSources (options : Options) (fs : FileSystem) (stdin : Except FileError (List UInt8))
    (inputs : List Source.Input) : Assembly :=
  let read := Source.read options.cpu fs stdin inputs
  ofProgram options read.arena read.diagnostics

/-- Assembles a text in memory. -/
def ofText (options : Options) (fs : FileSystem) (name : String) (text : List Char) : Assembly :=
  ofSources options fs (.ok []) [.text name text ""]

/-- The statement that sets the first address. -/
def origin (start : Nat) : Statement :=
  ⟨.topLevel, .setPc (.constant (Int64.ofNat start))⟩

/-- Places a program at an address. -/
def placeAt (start : Nat) (p : Program) : Program :=
  ⟨.leaf p.size (origin start) :: p.children, p.size + 1⟩

/-- Places a program in an arena at an address. -/
def placeArenaAt (start : Nat) (a : Arena) : Arena :=
  match a.get? 0 with
  | some (.sequence location children) =>
    (a.push (.statement (origin start))).set 0 (.sequence location (a.size :: children))
  | _ => a

/-- The name of a text that is compiled. -/
def inputName : String := "<input>"

/-- The bytes of a text for the 6502 at an address, or what is wrong with it. -/
def compile (fs : FileSystem) (text : List Char) (start : Nat) : Except Diagnostics (Array UInt8) :=
  let options : Options := {}
  let read := Source.read options.cpu fs (.ok []) [.text inputName text ""]
  let assembly := ofProgram options (placeArenaAt start read.arena) read.diagnostics
  if assembly.diagnostics.hasErrors then .error assembly.diagnostics
  else .ok assembly.image.bytes

/-- What is said when a text cannot be compiled. -/
def failureText (d : Diagnostics) : String :=
  "Assembly failed:\n" ++ d.text

end Assembly
end Assembler6502
