import Assembler6502.Instruction
import Assembler6502.Location

/-!
# Items and statements

An item is one step of a program: an instruction, data, the definition of a label, or a directive
that moves the program counter, opens a scope or delimits a macro. A statement is an item with the
place that it came from.

## Main definitions

* `Width`, `Endian`: the size of a datum and the order of its bytes
* `Item`: the steps of a program
* `Item.expressions`: the expressions that an item mentions
* `Statement`: an item at a location
-/

namespace Assembler6502

/-- The size of a datum. -/
inductive Width where
  | byte
  | word
  | dword
  deriving DecidableEq, Repr

namespace Width

/-- The number of bytes. -/
def bytes : Width → Nat
  | byte => 1
  | word => 2
  | dword => 4

/-- The largest unsigned number that fits. -/
def maxValue : Width → Value
  | byte => 0xff
  | word => 0xffff
  | dword => 0xffffffff

def text : Width → String
  | byte => "Byte"
  | word => "Word"
  | dword => "Dword"

end Width

/-- The order of the bytes of a datum. -/
inductive Endian where
  | little
  | big
  deriving DecidableEq, Repr

/-- One step of a program. -/
inductive Item where
  /-- What is left where another step was taken out. -/
  | blank
  | instruction (instruction : Instruction)
  | data (width : Width) (endian : Endian) (values : List Expr)
  /-- A part of a file whose bounds wait for the values of labels. -/
  | byteRange (offset length : Expr) (bytes : List UInt8)
  | label (symbol : Symbol) (value : Expr)
  | setPc (target : Expr)
  /-- Fills memory up to an address. -/
  | advance (target fill : Expr)
  /-- Asserts that an address is not passed yet. -/
  | checkPc (target : Expr)
  | textSegment (name : String)
  | dataSegment (name : String)
  | scopeBegin
  | scopeEnd
  | macroBegin (name : String)
  | macroEnd
  | invoke (name : String) (arguments : List Expr)
  deriving Inhabited

namespace Item

/-- A label for the current address. -/
def mark (symbol : Symbol) : Item :=
  label symbol .programCounter

/-- The expressions that an item mentions, in the order in which they are written. -/
def expressions : Item → List Expr
  | instruction i => i.operand.toList
  | data _ _ values => values
  | byteRange offset length _ => [offset, length]
  | label _ value => [value]
  | setPc target => [target]
  | advance target fill => [target, fill]
  | checkPc target => [target]
  | invoke _ arguments => arguments
  | blank | textSegment _ | dataSegment _ | scopeBegin | scopeEnd | macroBegin _ | macroEnd => []

/-- Expressions with commas between them. -/
def listText (es : List Expr) : String :=
  ", ".intercalate (es.map Expr.text)

/-- The item as a dump of the program shows it. -/
def text : Item → String
  | blank => "None"
  | instruction i => i.text
  | data width endian values =>
    let suffix := if endian = .big then "BE" else ""
    width.text ++ suffix ++ " " ++ listText values
  | byteRange offset length bytes =>
    "ByteRange " ++ offset.text ++ ", " ++ length.text ++ " of " ++ Text.decimal bytes.length ++
      " bytes"
  | label symbol value => "Label " ++ symbol.text ++ " = " ++ value.text
  | setPc target => "SetPC " ++ target.text
  | advance target fill => "Advance " ++ target.text ++ ", " ++ fill.text
  | checkPc target => "CheckPC " ++ target.text
  | textSegment name => "TextSegment " ++ name
  | dataSegment name => "DataSegment " ++ name
  | scopeBegin => "ScopeBegin"
  | scopeEnd => "ScopeEnd"
  | macroBegin name => "MacroBegin " ++ name
  | macroEnd => "MacroEnd"
  | invoke name arguments => "MacroInvoke " ++ name ++ " " ++ listText arguments

end Item

/-- An item with the place that it came from. -/
structure Statement where
  location : Location
  item : Item
  deriving Inhabited

end Assembler6502
