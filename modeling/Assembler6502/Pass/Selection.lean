import Assembler6502.Pass.Basic

/-!
# Selection of encodings

An instruction whose mode is open gets the mode of the zero page if its operand is small and such a
mode exists, and the absolute mode otherwise. What does not depend on labels is settled at once.
The rest is settled while labels find their places: an instruction in the zero page whose operand
grows is widened again and stays wide. A branch that does not reach its target is replaced by a
jump, which the opposite branch skips if the branch was a conditional one.

## Main definitions

* `Pass.easyModes`: settles what does not depend on labels
* `Pass.collapse`: narrows and widens instructions by the values of their operands
* `Pass.normalizeModes`: makes the modes that are still open absolute
* `Pass.extendBranches`: replaces branches that do not reach their targets
-/

namespace Assembler6502

/-- The first address behind the zero page. -/
def zeroPageEnd : Value := 0x100

namespace Instruction

/-- The instruction in a known mode. -/
def inMode (i : Instruction) (mode : Mode) : Instruction :=
  { i with addressing := .resolved mode }

/-- The instruction in its mode of the zero page, if its mode is open, the operand has a small value
and the mode exists. -/
def narrowed? (cpu : Cpu) (value : Value) (i : Instruction) : Option Instruction :=
  match i.addressing with
  | .pending shape =>
    if value < zeroPageEnd && cpu.hasMode i.mnemonic shape.zeroPage then
      some (i.inMode shape.zeroPage)
    else none
  | .resolved _ => none

/-- The instruction in its wide mode, if it is a direct one of the zero page, the operand has a
large value and the mode exists. -/
def widened? (cpu : Cpu) (value : Value) (i : Instruction) : Option Instruction :=
  match i.addressing with
  | .pending _ => none
  | .resolved mode =>
    match mode.widened? with
    | none => none
    | some wide =>
      if zeroPageEnd ≤ value && cpu.hasMode i.mnemonic wide then some (i.inMode wide) else none

/-- The relative mode of a branch that is written with a plain operand. -/
def branchMode? (cpu : Cpu) (i : Instruction) : Option Mode :=
  match i.addressing with
  | .pending .memory => [Mode.relative, Mode.relativeWord].find? (cpu.hasMode i.mnemonic)
  | _ => none

/-- The target of an instruction with a displacement of one byte. -/
def branchTarget? (i : Instruction) : Option Expr :=
  if i.addressing = .resolved .relative then i.operand else none

end Instruction

/-- The operation and the target of a branch with a displacement of one byte. -/
def Item.branch? : Item → Option (Mnemonic × Expr)
  | .instruction i => i.branchTarget?.map fun target => (i.mnemonic, target)
  | _ => none

/-- How far a target lies from the end of a branch of two bytes. -/
def displacement (target pc : Value) : Value :=
  Value.saturatingSub target (Value.saturatingAdd pc 2)

/-- Whether a displacement fits into a signed byte. -/
def fitsByte (d : Value) : Bool :=
  -128 ≤ d && d ≤ 127

namespace Pass

/-- The value of an operand; an operand that is missing counts as zero. -/
def operandValue {μ : Type} (s : Sweep μ) (location : Location) (i : Instruction) :
    Value × Sweep μ :=
  match i.operand with
  | some e => s.valueOf location e
  | none => (0, s)

/-- Settles the modes of branches and of instructions with constant operands. -/
def easyModes : Visit Unit := fun s id st =>
  match st.item with
  | .instruction i =>
    match i.addressing with
    | .resolved _ => (s, .leaf id st)
    | .pending shape =>
      let cpu := s.context.cpu
      let settled (i : Instruction) := Node.leaf id { st with item := .instruction i }
      match i.branchMode? cpu with
      | some mode => (s, settled (i.inMode mode))
      | none =>
        if i.operand.any Expr.isHardcoded then
          let (v, s) := operandValue s st.location i
          (s, settled ((i.narrowed? cpu v).getD (i.inMode shape.absolute)))
        else (s, .leaf id st)
  | _ => (s.mapContext (·.followStructure st), .leaf id st)

/-- Whether the size of an instruction depends on the value of its operand. -/
def isResizable (i : Instruction) : Bool :=
  match i.addressing with
  | .pending _ => true
  | .resolved mode => mode.widened?.isSome

/-- The instruction in the size that the value of its operand asks for, if that is another one. -/
def resized? {μ : Type} (s : Sweep μ) (location : Location) (i : Instruction) :
    Option Instruction × Sweep μ :=
  if isResizable i then
    let (v, s) := operandValue s location i
    let cpu := s.context.cpu
    ((i.narrowed? cpu v).or (i.widened? cpu v), s)
  else (none, s)

/-- Narrows and widens instructions. -/
def collapse : Visit Unit := fun s id st =>
  match st.item with
  | .instruction i =>
    match resized? s st.location i with
    | (none, s) => (s.mapContext (·.follow st), .leaf id st)
    | (some i, s) =>
      let st := { st with item := .instruction i }
      (s.setChanged.mapContext (·.follow st), .leaf id st)
  | _ => (s.mapContext (·.follow st), .leaf id st)

/-- Makes every mode that is still open absolute. -/
def normalizeModes : Visit Unit := fun s id st =>
  match st.item with
  | .instruction i =>
    match i.addressing with
    | .resolved _ => (s, .leaf id st)
    | .pending shape => (s, .leaf id { st with item := .instruction (i.inMode shape.absolute) })
  | _ => (s.mapContext (·.followStructure st), .leaf id st)

/-- The opposite branch that skips a jump. -/
def skippingBranch (inverse : Mnemonic) : Instruction :=
  .resolved inverse .relative (.pcPlus 5)

/-- The jump to a target. -/
def jumpTo (target : Expr) : Instruction :=
  .resolved .jmp .absolute target

/-- The statement with another instruction in its place. -/
def inPlace (st : Statement) (i : Instruction) : Statement :=
  { st with item := .instruction i }

/-- Puts a jump in the place of a branch that is always taken. -/
def replaceByJump (s : Sweep Unit) (id : Nat) (st : Statement) (branch : Mnemonic)
    (target : Expr) : Sweep Unit × Node :=
  let jump := inPlace st (jumpTo target)
  let s := (s.warn st.location (.branchReplacedWithJump branch)).setChanged
  (s.mapContext (·.follow jump), .leaf id jump)

/-- Puts the opposite branch and a jump in the place of a branch, and visits both. The opposite
branch stands where the branch stood; if it does not reach over the jump, then its own replacement
would not either, and so on without end. So its visit comes without a way to visit again. -/
def replaceBySkip (again : Option (Visit Unit)) (s : Sweep Unit) (id : Nat) (st : Statement)
    (branch inverse : Mnemonic) (target : Expr) : Sweep Unit × Node :=
  let s := (s.warn st.location (.branchExtended branch inverse)).setChanged
  let first := s.size
  let s := { s with size := first + 2 }
  match again with
  | none => (s.error st.location (.pass (.endlessExtension branch)), .leaf id st)
  | some visit =>
    let (s, skip) := visit s first (inPlace st (skippingBranch inverse))
    let (s, jump) := visit s (first + 1) (inPlace st (jumpTo target))
    (s, .sequence id st.location [skip, jump])

/-- Replaces a branch that does not reach its target. A branch that has no opposite stays. -/
def extendBranch (again : Option (Visit Unit)) : Visit Unit := fun s id st =>
  match st.item with
  | .instruction i =>
    match i.branchTarget? with
    | none => (s.mapContext (·.follow st), .leaf id st)
    | some target =>
      let (v, s) := s.valueOf st.location target
      if fitsByte (displacement v s.context.env.pc) then
        (s.mapEnv (·.advancePc 2), .leaf id st)
      else if i.mnemonic = .bra then replaceByJump s id st i.mnemonic target
      else
        match i.mnemonic.inverse? with
        | none => (s.mapEnv (·.advancePc 2), .leaf id st)
        | some inverse => replaceBySkip again s id st i.mnemonic inverse target
  | _ => (s.mapContext (·.follow st), .leaf id st)

/-- Replaces branches that do not reach their targets. -/
def extendBranches : Visit Unit :=
  extendBranch (some (extendBranch none))

end Pass
end Assembler6502
