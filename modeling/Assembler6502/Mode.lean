/-!
# Addressing modes

An addressing mode says how an instruction uses its operand and how many bytes the operand takes.
The way an operand is written does not always settle the mode: `lda v` reads the zero page if `v`
is small and any other address otherwise. Until the operand's value is known such an instruction
keeps the shape of its operand instead of a mode.

## Main definitions

* `Mode`: the addressing modes
* `Mode.operandSize`, `Mode.widened?`: the bytes of an operand, and the wide counterpart of a mode
* `OperandShape`: the written forms that leave the mode open
* `Addressing`: a mode, or a shape that is still to be resolved to one
-/

namespace Assembler6502

/-- How an instruction uses its operand. Operations on the accumulator are implied. -/
inductive Mode where
  | implied
  | immediate
  | immediateWord
  | zeroPage
  | zeroPageX
  | zeroPageY
  | absolute
  | absoluteX
  | absoluteY
  /-- `(a)` -/
  | indirect
  /-- `(a,x)` -/
  | indexedIndirect
  /-- `(a),y` -/
  | indirectIndexed
  /-- `(zp)` -/
  | zeroPageIndirect
  /-- `(zp,x)` -/
  | zeroPageIndexedIndirect
  /-- `(zp),y` -/
  | zeroPageIndirectIndexed
  /-- A branch, encoded as a signed displacement of one byte. -/
  | relative
  /-- A branch, encoded as a signed displacement of two bytes. -/
  | relativeWord
  deriving DecidableEq, Repr, Inhabited

namespace Mode

/-- All addressing modes. -/
def all : List Mode :=
  [implied, immediate, immediateWord, zeroPage, zeroPageX, zeroPageY, absolute, absoluteX,
    absoluteY, indirect, indexedIndirect, indirectIndexed, zeroPageIndirect,
    zeroPageIndexedIndirect, zeroPageIndirectIndexed, relative, relativeWord]

/-- The number of operand bytes behind the opcode. -/
def operandSize : Mode → Nat
  | implied => 0
  | immediate | zeroPage | zeroPageX | zeroPageY | zeroPageIndirect | zeroPageIndexedIndirect
  | zeroPageIndirectIndexed | relative => 1
  | immediateWord | absolute | absoluteX | absoluteY | indirect | indexedIndirect
  | indirectIndexed | relativeWord => 2

/-- The absolute counterpart of a direct mode of the zero page. -/
def widened? : Mode → Option Mode
  | zeroPage => some absolute
  | zeroPageX => some absoluteX
  | zeroPageY => some absoluteY
  | _ => none

/-- The name that messages use. -/
def text : Mode → String
  | implied => "Implied"
  | immediate => "Immediate"
  | immediateWord => "Immediate Word"
  | zeroPage => "Zero Page"
  | zeroPageX => "Zero Page, X"
  | zeroPageY => "Zero Page, Y"
  | absolute => "Absolute"
  | absoluteX => "Absolute, X"
  | absoluteY => "Absolute, Y"
  | indirect => "(Absolute)"
  | indexedIndirect => "(Absolute, X)"
  | indirectIndexed => "(Absolute), Y"
  | zeroPageIndirect => "(Zero Page)"
  | zeroPageIndexedIndirect => "(Zero Page, X)"
  | zeroPageIndirectIndexed => "(Zero Page), Y"
  | relative => "Relative"
  | relativeWord => "Relative Word"

end Mode

/-- The written form of an operand whose mode depends on its value. -/
inductive OperandShape where
  /-- `e` -/
  | memory
  /-- `e,x` -/
  | memoryX
  /-- `e,y` -/
  | memoryY
  /-- `(e)` -/
  | pointer
  /-- `(e,x)` -/
  | pointerX
  /-- `(e),y` -/
  | pointerY
  deriving DecidableEq, Repr

namespace OperandShape

/-- The mode for an operand in the zero page. -/
def zeroPage : OperandShape → Mode
  | memory => .zeroPage
  | memoryX => .zeroPageX
  | memoryY => .zeroPageY
  | pointer => .zeroPageIndirect
  | pointerX => .zeroPageIndexedIndirect
  | pointerY => .zeroPageIndirectIndexed

/-- The mode for any other operand. -/
def absolute : OperandShape → Mode
  | memory => .absolute
  | memoryX => .absoluteX
  | memoryY => .absoluteY
  | pointer => .indirect
  | pointerX => .indexedIndirect
  | pointerY => .indirectIndexed

end OperandShape

/-- An addressing mode, or the shape of an operand that is still to be resolved to one. -/
inductive Addressing where
  | pending (shape : OperandShape)
  | resolved (mode : Mode)
  deriving DecidableEq, Repr

end Assembler6502
