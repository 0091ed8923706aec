import Assembler6502.Charmap
import Assembler6502.Cpu
import Assembler6502.Expr.Reader

/-!
# Phrases

A line holds any number of labels and then at most one phrase: an instruction, a directive or the
call of a macro. What a phrase says is settled here; what it does to files and to the character map
is left to the reading of the sources.

## Main definitions

* `Source.Phrase`: what a line says behind its labels
* `Source.Setting`: what the meaning of a phrase depends on
-/

namespace Assembler6502
namespace Source

/-- What a line says behind its labels. -/
inductive Phrase where
  | nothing
  | item (item : Item)
  /-- A label with so many bytes behind it left free. -/
  | reserve (symbol : Symbol) (size : Value)
  | outfile (name : String)
  /-- Another source in this place, unless it is to be read once and was read already. -/
  | include (name : String) (once : Bool)
  /-- Part of a file as data. -/
  | incbin (name : String) (offset : Expr) (length : Option Expr)
  | charmapReset
  | charmapEntries (values : List Expr)
  | charmapFile (name : String)

/-- What a phrase is read with: the processor, the character map and the number of anonymous labels
before the phrase. -/
structure Setting where
  cpu : Cpu
  charmap : Charmap
  count : Nat

namespace Setting

/-- The values of a string, one for each byte, through the character map if asked for. -/
def stringValues (g : Setting) (translate : Bool) (text : List Char) : List Expr :=
  (text.flatMap String.utf8EncodeChar).map fun b =>
    .constant (Int64.ofNat (if translate then g.charmap.translate b else b).toNat)

/-- The mode of an operand behind a hash mark: a byte, unless the operation only takes a word. -/
def immediateMode (g : Setting) (m : Mnemonic) : Mode :=
  if !g.cpu.hasMode m .immediate && g.cpu.hasMode m .immediateWord then .immediateWord
  else .immediate

end Setting

end Source
end Assembler6502
