import Assembler6502.Expr.Basic
import Assembler6502.Mnemonic
import Assembler6502.Mode

/-!
# Instructions

An instruction is an operation with its addressing and, mostly, an operand. While the mode is open
an instruction counts as the widest encoding, so that addresses behind it are not too small.

## Main definitions

* `Instruction`: an operation on an operand
* `Instruction.size`: the bytes it takes
* `Instruction.text`: the written form
-/

namespace Assembler6502

/-- An operation on an operand. -/
structure Instruction where
  mnemonic : Mnemonic
  addressing : Addressing
  operand : Option Expr

namespace Instruction

/-- An instruction without an operand. -/
def implied (mnemonic : Mnemonic) : Instruction :=
  ⟨mnemonic, .resolved .implied, none⟩

/-- An instruction in a known mode. -/
def resolved (mnemonic : Mnemonic) (mode : Mode) (operand : Expr) : Instruction :=
  ⟨mnemonic, .resolved mode, some operand⟩

/-- An instruction whose mode depends on the value of its operand. -/
def pending (mnemonic : Mnemonic) (shape : OperandShape) (operand : Expr) : Instruction :=
  ⟨mnemonic, .pending shape, some operand⟩

/-- The bytes of opcode and operand; three while the mode is open. -/
def size (i : Instruction) : Nat :=
  match i.addressing with
  | .pending _ => 3
  | .resolved mode => 1 + mode.operandSize

/-- The written form of an operand. Constants are hexadecimal: two digits where the mode stores one
byte, four otherwise and for branch targets. -/
def operandText (mode : Mode) : Expr → String
  | .constant v =>
    if mode.operandSize = 1 ∧ mode ≠ .relative then "$" ++ v.hexUpper 2 else "$" ++ v.hexUpper 4
  | e => e.text

/-- The written form. An open mode is shown like the absolute one. -/
def text (i : Instruction) : String :=
  match i.operand with
  | none => i.mnemonic.text
  | some operand =>
    let mode :=
      match i.addressing with
      | .resolved mode => mode
      | .pending shape => shape.absolute
    let e := operandText mode operand
    match mode with
    | .implied => i.mnemonic.text
    | .immediate | .immediateWord => i.mnemonic.text ++ " #" ++ e
    | .zeroPage | .absolute | .relative | .relativeWord => i.mnemonic.text ++ " " ++ e
    | .zeroPageX | .absoluteX => i.mnemonic.text ++ " " ++ e ++ ",X"
    | .zeroPageY | .absoluteY => i.mnemonic.text ++ " " ++ e ++ ",Y"
    | .indirect | .zeroPageIndirect => i.mnemonic.text ++ " (" ++ e ++ ")"
    | .indexedIndirect | .zeroPageIndexedIndirect => i.mnemonic.text ++ " (" ++ e ++ ",X)"
    | .indirectIndexed | .zeroPageIndirectIndexed => i.mnemonic.text ++ " (" ++ e ++ "),Y"

end Instruction
end Assembler6502
