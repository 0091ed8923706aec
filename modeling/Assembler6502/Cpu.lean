import Assembler6502.Encoding

/-!
# Processors

The members of the 6502 family. Every processor has the documented encodings of the 6502 and at
most one line of additions. Looking up an opcode and looking up what an opcode means go through the
same list of encodings.

## Main definitions

* `Cpu`: the processors
* `Cpu.encodings`: all encodings of a processor
* `Cpu.opcode?`, `Cpu.decode?`: from operation and mode to opcode, and back
-/

namespace Assembler6502

/-- A processor of the family. -/
inductive Cpu where
  | mos6502
  /-- The 6502 with its undocumented encodings. -/
  | undocumented
  | wdc65C02
  /-- The 65C02 with the additions of the 4502. -/
  | csg4502
  deriving DecidableEq, Repr, Inhabited

namespace Cpu

/-- All encodings of a processor. -/
def encodings : Cpu → List Encoding
  | mos6502 => Encoding.documented
  | undocumented => Encoding.documented ++ Encoding.undocumented
  | wdc65C02 => Encoding.documented ++ Encoding.added65C02
  | csg4502 => Encoding.documented ++ Encoding.added65C02 ++ Encoding.added4502

/-- The opcode of an operation in a mode. -/
def opcode? (cpu : Cpu) (mnemonic : Mnemonic) (mode : Mode) : Option UInt8 :=
  (cpu.encodings.find? fun e => e.mnemonic == mnemonic && e.mode == mode).map (·.opcode)

/-- The operation and the mode that an opcode stands for. -/
def decode? (cpu : Cpu) (opcode : UInt8) : Option (Mnemonic × Mode) :=
  (cpu.encodings.find? fun e => e.opcode == opcode).map fun e => (e.mnemonic, e.mode)

/-- Whether an operation has a mode. -/
def hasMode (cpu : Cpu) (mnemonic : Mnemonic) (mode : Mode) : Bool :=
  (cpu.opcode? mnemonic mode).isSome

/-- Whether an operation exists in any mode. -/
def hasMnemonic (cpu : Cpu) (mnemonic : Mnemonic) : Bool :=
  cpu.encodings.any fun e => e.mnemonic == mnemonic

end Cpu
end Assembler6502
