import Assembler6502.Cpu
import Assembler6502.Instruction

/-!
# Disassembly

Bytes are turned back into instructions one after the other. A byte that is no opcode, or the opcode
of an instruction that the input cuts short, stands for itself. Branches show their targets, which
wrap around at the end of memory; the addresses of lines do not wrap.

## Main definitions

* `Decoded`: an instruction or a byte that stands for itself
* `Disassembly.Line`: what was decoded, where and from which bytes
* `Disassembly.ofBytes`: all lines of an input
* `Disassembly.listing`: the lines as text
-/

namespace Assembler6502

/-- What some bytes stand for. -/
inductive Decoded where
  | instruction (instruction : Instruction)
  | byte (byte : UInt8)

def Decoded.text : Decoded → String
  | instruction i => i.text
  | byte b => ".byte $" ++ Text.hexUpper 2 b.toNat

namespace Disassembly

/-- What was decoded, where and from which bytes. -/
structure Line where
  address : Nat
  bytes : List UInt8
  decoded : Decoded

/-- The number that some bytes make, the lowest first. -/
def unsigned : List UInt8 → Nat
  | [] => 0
  | b :: rest => b.toNat + 256 * unsigned rest

/-- The number that some bytes make as a two's complement, the lowest first. -/
def signed (bytes : List UInt8) : Int :=
  Int.bmod (unsigned bytes) (Nat.pow 256 bytes.length)

/-- The operand of an instruction at an address; branches have their targets for operands. -/
def operand? (mode : Mode) (address : Nat) (bytes : List UInt8) : Option Expr :=
  if bytes.isEmpty then none
  else if mode = .relative ∨ mode = .relativeWord then
    some (.constant (Int64.ofInt ((address + 2 + signed bytes) % 0x10000)))
  else some (.constant (Int64.ofNat (unsigned bytes)))

/-- Decodes what an opcode and the bytes behind it start with. -/
def decodeLine (cpu : Cpu) (address : Nat) (opcode : UInt8) (rest : List UInt8) : Line :=
  match cpu.decode? opcode with
  | some (m, mode) =>
    let operand := rest.take mode.operandSize
    if operand.length = mode.operandSize then
      ⟨address, opcode :: operand,
        .instruction ⟨m, .resolved mode, operand? mode address operand⟩⟩
    else ⟨address, [opcode], .byte opcode⟩
  | none => ⟨address, [opcode], .byte opcode⟩

/-- Decodes at most `fuel` lines. Every line takes at least one byte. -/
def linesFrom (cpu : Cpu) : Nat → Nat → List UInt8 → List Line
  | 0, _, _ => []
  | _ + 1, _, [] => []
  | fuel + 1, address, opcode :: rest =>
    let line := decodeLine cpu address opcode rest
    let size := line.bytes.length
    line :: linesFrom cpu fuel (address + size) ((opcode :: rest).drop size)

/-- Decodes an input that is loaded at an address. -/
def ofBytes (cpu : Cpu) (origin : Nat) (bytes : List UInt8) : List Line :=
  linesFrom cpu bytes.length origin bytes

/-- A line as text: the address, the bytes and what they stand for. -/
def Line.text (line : Line) : String :=
  let hexdump := " ".intercalate (line.bytes.map fun b => Text.hexLower 2 b.toNat)
  let padding := "".pushn ' ' (8 - hexdump.length)
  "0x" ++ Text.hexLower 4 line.address ++ "  " ++ hexdump ++ padding ++ "  " ++
    line.decoded.text ++ "\n"

/-- The lines as text, under a heading. -/
def listing (lines : List Line) : String :=
  " Addr   Hexdump   Instructions\n" ++ "-------------------------------\n" ++
    String.join (lines.map Line.text)

end Disassembly
end Assembler6502
