import Assembler6502.Pass.Selection

/-!
# Images

The last pass turns the program into bytes. It reports what does not fit and writes zero in its
place, so that everything behind it stays where it belongs. Bytes are only written in text segments.

## Main definitions

* `littleEndian`: the bytes of a number, the lowest first
* `Image`: the bytes written so far, and how many of them are code, data and filler
* `Pass.emit`: writes the bytes of a statement
-/

namespace Assembler6502

/-- The lowest `count` bytes of a number, the lowest first. -/
def littleEndian : Nat → Nat → List UInt8
  | 0, _ => []
  | count + 1, n => UInt8.ofNat n :: littleEndian count (n / 256)

/-- The bytes of a number in a width. -/
def Width.encode (width : Width) (endian : Endian) (n : Nat) : List UInt8 :=
  match endian with
  | .little => littleEndian width.bytes n
  | .big => (littleEndian width.bytes n).reverse

/-- Whether a value is an unsigned number of a width. -/
def Width.fits (width : Width) (v : Value) : Bool :=
  0 ≤ v && v ≤ width.maxValue

/-- The two's complement of a displacement in `count` bytes. -/
def displacementBytes (count : Nat) (d : Value) : List UInt8 :=
  littleEndian count d.toUInt64.toNat

/-- The first address behind the memory of the processor. -/
def memoryEnd : Value := 0x10000

/-- How many bytes were written, by what they are. -/
structure Stats where
  code : Nat := 0
  data : Nat := 0
  filler : Nat := 0
  deriving DecidableEq, Repr

namespace Stats

def total (s : Stats) : Nat :=
  s.code + s.data + s.filler

def text (s : Stats) : String :=
  Text.decimal s.total ++ " bytes output (" ++ Text.decimal s.code ++ " code, " ++
    Text.decimal s.data ++ " data, " ++ Text.decimal s.filler ++ " filler)"

end Stats

/-- The bytes written so far. -/
structure Image where
  bytes : Array UInt8 := #[]
  stats : Stats := {}
  deriving DecidableEq, Repr

namespace Pass

/-- The name of the last pass in messages. -/
def emitName : String := "assembler"

/-- Reports a fault of the last pass. -/
def emissionError (s : Sweep Image) (location : Location) (e : EmissionError) : Sweep Image :=
  s.error location (.emission e)

/-- Writes bytes, unless the segment does not take any. -/
def write (s : Sweep Image) (location : Location) (bytes : List UInt8) : Sweep Image :=
  if s.context.env.writable then { s with memory.bytes := s.memory.bytes ++ bytes }
  else emissionError s location .writeToDataSegment

/-- The value of an expression as an unsigned number of a width, zero if it is none. -/
def checkedValue (s : Sweep Image) (location : Location) (width : Width) (e : Expr) :
    Nat × Sweep Image :=
  let (v, s) := s.valueOf location e
  if width.fits v then (v.toInt.toNat, s)
  else (0, emissionError s location (.valueOutOfRange width e.text))

/-- Writes the value of an expression. -/
def emitValue (s : Sweep Image) (location : Location) (width : Width) (endian : Endian)
    (e : Expr) : Sweep Image :=
  let (n, s) := checkedValue s location width e
  write s location (width.encode endian n)

/-- Writes the displacement of a target from the end of a branch of two bytes. -/
def emitDisplacement (s : Sweep Image) (location : Location) (count : Nat) (low high : Value)
    (target : Expr) : Sweep Image :=
  let (v, s) := s.valueOf location target
  let d := displacement v s.context.env.pc
  if low ≤ d && d ≤ high then write s location (displacementBytes count d)
  else
    write (emissionError s location .branchOutOfRange) location (displacementBytes count 0)

/-- Writes the operand of an instruction. -/
def emitOperand (s : Sweep Image) (location : Location) (mode : Mode) (e : Expr) : Sweep Image :=
  match mode with
  | .relative => emitDisplacement s location 1 (-0x80) 0x7f e
  | .relativeWord => emitDisplacement s location 2 (-0x8000) 0x7fff e
  | _ =>
    match mode.operandSize with
    | 0 => s
    | 1 => emitValue s location .byte .little e
    | _ => emitValue s location .word .little e

/-- Writes an instruction. -/
def emitInstruction (s : Sweep Image) (location : Location) (i : Instruction) : Sweep Image :=
  match i.addressing with
  | .pending _ => emissionError s location (.unresolvedMode i.mnemonic)
  | .resolved mode =>
    match s.context.cpu.opcode? i.mnemonic mode with
    | none => emissionError s location (.noSuchMode i.mnemonic mode)
    | some opcode =>
      let s := write s location [opcode]
      let s :=
        match i.operand with
        | some e => emitOperand s location mode e
        | none => s
      let s := s.mapEnv (·.advancePc (Int64.ofNat i.size))
      { s with memory.stats.code := s.memory.stats.code + i.size }

/-- Writes data. -/
def emitData (s : Sweep Image) (location : Location) (width : Width) (endian : Endian)
    (values : List Expr) : Sweep Image :=
  let s := values.foldl (fun s e => emitValue s location width endian e) s
  let size := width.bytes * values.length
  let s := s.mapEnv (·.advancePc (Int64.ofNat size))
  { s with memory.stats.data := s.memory.stats.data + size }

/-- The part of a file that an offset and a length name. -/
def subrange (bytes : List UInt8) (offset length : Value) : Except EmissionError (List UInt8) :=
  if offset < 0 then .error .negativeOffset
  else if bytes.length < offset.toInt.toNat then .error .offsetPastEnd
  else if length < 0 then .error .negativeLength
  else if bytes.length < offset.toInt.toNat + length.toInt.toNat then .error .fileTooSmall
  else .ok ((bytes.drop offset.toInt.toNat).take length.toInt.toNat)

/-- Writes part of a file. -/
def emitByteRange (s : Sweep Image) (location : Location) (offset length : Expr)
    (bytes : List UInt8) : Sweep Image :=
  let (offset, s) := s.valueOf location offset
  let (length, s) := s.valueOf location length
  match subrange bytes offset length with
  | .error e => emissionError s location e
  | .ok part =>
    let s := write s location part
    let s := s.mapEnv (·.advancePc length)
    { s with memory.stats.data := s.memory.stats.data + part.length }

/-- Fills memory up to a target. -/
def emitAdvance (s : Sweep Image) (location : Location) (target fill : Expr) : Sweep Image :=
  let pc := s.context.env.pc
  let (target, s) := s.valueOf location target
  if target < pc then
    (emissionError s location (.advanceBackwards pc target)).mapEnv (·.setPc target)
  else if memoryEnd < target then emissionError s location (.advancePastEnd target)
  else if pc < target then
    let count := (target.toInt - pc.toInt).toNat
    let (n, s) := checkedValue s location .byte fill
    let s := write s location (List.replicate count (UInt8.ofNat n))
    let s := { s with memory.stats.filler := s.memory.stats.filler + count }
    s.mapEnv (·.setPc target)
  else s.mapEnv (·.setPc target)

/-- Asserts that an address is not passed yet. -/
def emitCheckPc (s : Sweep Image) (location : Location) (target : Expr) : Sweep Image :=
  let pc := s.context.env.pc
  let (target, s) := s.valueOf location target
  if target < pc then emissionError s location (.checkPcFailed pc target) else s

/-- Writes the bytes of a statement. -/
def emit : Visit Image := Visit.observe fun s _ st =>
  let location := st.location
  match st.item with
  | .instruction i => emitInstruction s location i
  | .data width endian values => emitData s location width endian values
  | .byteRange offset length bytes => emitByteRange s location offset length bytes
  | .label _ _ => s
  | .setPc target =>
    let (v, s) := s.valueOf location target
    s.mapEnv (·.setPc v)
  | .checkPc target => emitCheckPc s location target
  | .advance target fill => emitAdvance s location target fill
  | item =>
    match s.context.followStructure? st with
    | some context => { s with context }
    | none => s.error location (.pass (.unhandledItem emitName item.text))

end Pass
end Assembler6502
