import Assembler6502.Source.Phrase

/-!
# The grammar of a line

A line as the list of its tokens. Its labels and its phrase are read from the tokens as a whole,
with what is behind a part handed on as a shorter list. This is what going over the text token by
token comes to, as long as it stays on the line.

## Main definitions

* `Source.takeLabels`: the labels at the beginning of a line
* `Source.readPhrase`: the phrase that follows them
-/

namespace Assembler6502
namespace Source

/-- The labels that a line starts with, how many anonymous labels there are then, and the tokens
behind. A star is an anonymous label; anonymous labels are numbered throughout the program. -/
def takeLabels (count : Nat) : List Token → List Symbol × Nat × List Token
  | ⟨.identifier name, _⟩ :: ⟨.mark .colon, _⟩ :: rest =>
    let (labels, count, rest) := takeLabels count rest
    (Symbol.ofText name :: labels, count, rest)
  | ⟨.mark .star, _⟩ :: rest =>
    let (labels, total, rest) := takeLabels (count + 1) rest
    (Expr.anonymousLabel (count + 1 : Nat) :: labels, total, rest)
  | ts => ([], count, ts)

open Assembler6502.Expr (Reader)

/-- Moves past an identifier. -/
def readIdentifier (what : String) : Reader String := fun ts =>
  match Token.first ts with
  | .identifier name => .ok (name, ts.tail)
  | _ => .error (.unexpected what ts)

/-- Moves past a string literal. -/
def readString : Reader String := fun ts =>
  match Token.first ts with
  | .string text => .ok (String.ofList text, ts.tail)
  | _ => .error (.unexpected "string" ts)

/-- Moves past the name of an index register. -/
def expectRegister (register : String) (ts : List Token) : Except ParseError (List Token) :=
  if Token.first ts = .identifier register then .ok ts.tail else .error (.unexpected register ts)

/-- Nothing may follow on the line. -/
def expectEnd (ts : List Token) : Except ParseError Unit :=
  if (Token.first ts).isLineEnd then .ok () else .error (.unexpected "end of line" ts)

/-- Whether some tokens start with a comma. -/
def atComma (ts : List Token) : Bool :=
  Token.first ts = .mark .comma

namespace Setting

def readExpr (g : Setting) : Reader Expr :=
  Expr.read g.count

/-- An expression that fills the rest of the line. -/
def readSingle (g : Setting) (ts : List Token) : Except ParseError Expr := do
  let (e, ts) ← g.readExpr ts
  expectEnd ts
  return e

/-- Reads one expression or string. -/
def readValue (g : Setting) (translate : Bool) : Reader (List Expr) := fun ts =>
  match Token.first ts with
  | .string text => .ok (g.stringValues translate text, ts.tail)
  | _ => do
    let (e, ts) ← g.readExpr ts
    return ([e], ts)

/-- Reads expressions and strings with commas between them, at most `fuel` of them, up to the end
of the line. -/
def readValuesFrom (g : Setting) (translate : Bool) :
    Nat → List Token → Except ParseError (List Expr)
  | 0, ts => .error (.unexpected "end of line" ts)
  | fuel + 1, ts => do
    let (values, ts) ← g.readValue translate ts
    if atComma ts then
      let rest ← g.readValuesFrom translate fuel ts.tail
      return values ++ rest
    else
      expectEnd ts
      return values

/-- Reads expressions and strings with commas between them up to the end of the line. -/
def readValues (g : Setting) (translate : Bool) (ts : List Token) : Except ParseError (List Expr) :=
  g.readValuesFrom translate (ts.length + 1) ts

/-- Reads the name of an operation that the processor has. -/
def readMnemonic (g : Setting) : Reader Mnemonic := fun ts => do
  let (name, ts) ← readIdentifier "opcode" ts
  match (Mnemonic.ofText? name.toList).filter g.cpu.hasMnemonic with
  | some m => return (m, ts)
  | none => throw (.unknownOpcode name)

/-- Reads what follows an operand in parentheses: `,x)`, `)`, or `),y`. -/
def readPointerShape : Reader OperandShape := fun ts => do
  if atComma ts then
    let ts ← expectRegister "x" ts.tail
    let ts ← Token.expectMark .parenRight ")" ts
    return (.pointerX, ts)
  else
    let ts ← Token.expectMark .parenRight ")" ts
    if atComma ts then
      let ts ← expectRegister "y" ts.tail
      return (.pointerY, ts)
    else return (.pointer, ts)

/-- Reads what follows a plain operand: nothing, `,x` or `,y`. -/
def readMemoryShape : Reader OperandShape := fun ts => do
  if atComma ts then
    if Token.first ts.tail = .identifier "x" then return (.memoryX, ts.tail.tail)
    else if Token.first ts.tail = .identifier "y" then return (.memoryY, ts.tail.tail)
    else throw (.unexpected "x or y" ts.tail)
  else return (.memory, ts)

/-- Reads an instruction. -/
def readInstruction (g : Setting) (ts : List Token) : Except ParseError Instruction := do
  let (m, ts) ← g.readMnemonic ts
  match Token.first ts with
  | .endOfLine | .endOfFile => return .implied m
  | .mark .hash =>
    let (e, ts) ← g.readExpr ts.tail
    expectEnd ts
    return .resolved m (g.immediateMode m) e
  | .mark .parenLeft =>
    let (e, ts) ← g.readExpr ts.tail
    let (shape, ts) ← readPointerShape ts
    expectEnd ts
    return .pending m shape e
  | _ =>
    let (e, ts) ← g.readExpr ts
    let (shape, ts) ← readMemoryShape ts
    expectEnd ts
    return .pending m shape e

/-- Reads the call of a macro behind its mark. -/
def readInvoke (g : Setting) (ts : List Token) : Except ParseError Item := do
  let (name, ts) ← readIdentifier "label" ts
  if (Token.first ts).isLineEnd then return .invoke name []
  else return .invoke name (← g.readValues true ts)

/-- Reads the name of a segment, which may be left out. -/
def readSegment (default : String) (ts : List Token) : Except ParseError String := do
  match Token.first ts with
  | .identifier name =>
    expectEnd ts.tail
    return name
  | _ =>
    expectEnd ts
    return default

/-- Reads the target of `.advance` and what to fill with. -/
def readAdvance (g : Setting) (ts : List Token) : Except ParseError Item := do
  let (target, ts) ← g.readExpr ts
  if atComma ts then
    let (fill, ts) ← g.readExpr ts.tail
    expectEnd ts
    return .advance target fill
  else
    expectEnd ts
    return .advance target (.constant 0)

/-- Reads the name and the size of `.space`. The size is a numeral. -/
def readReserve (ts : List Token) : Except ParseError Phrase := do
  let (name, ts) ← readIdentifier "label" ts
  if (Token.first ts).isNumber then
    let size ← (Token.first ts).value
    expectEnd ts.tail
    return .reserve (Symbol.ofText name) size
  else throw (.unexpected "number" ts)

/-- Reads the file, the offset and the length of `.incbin`. -/
def readIncbin (g : Setting) (ts : List Token) : Except ParseError Phrase := do
  let (name, ts) ← readString ts
  if atComma ts then
    let (offset, ts) ← g.readExpr ts.tail
    if atComma ts then
      let (length, ts) ← g.readExpr ts.tail
      expectEnd ts
      return .incbin name offset (some length)
    else
      expectEnd ts
      return .incbin name offset none
  else
    expectEnd ts
    return .incbin name (.constant 0) none

/-- Reads a file name that fills the rest of the line. -/
def readFileName (ts : List Token) : Except ParseError String := do
  let (name, ts) ← readString ts
  expectEnd ts
  return name

/-- Reads the entries of `.charmap`, if there are any. -/
def readCharmap (g : Setting) (ts : List Token) : Except ParseError Phrase := do
  if (Token.first ts).isLineEnd then return .charmapReset
  else return .charmapEntries (← g.readValues false ts)

/-- Reads what follows the name of a directive. -/
def readDirective (g : Setting) (name : String) (ts : List Token) : Except ParseError Phrase := do
  match name with
  | "outfile" => return .outfile (← readFileName ts)
  | "include" => return .include (← readFileName ts) false
  | "require" => return .include (← readFileName ts) true
  | "incbin" => g.readIncbin ts
  | "charmap" => g.readCharmap ts
  | "charmapbin" => return .charmapFile (← readFileName ts)
  | "invoke" => return .item (← g.readInvoke ts)
  | "org" => return .item (.setPc (← g.readSingle ts))
  | "checkpc" => return .item (.checkPc (← g.readSingle ts))
  | "advance" => return .item (← g.readAdvance ts)
  | "alias" =>
    let (name, ts) ← readIdentifier "label" ts
    return .item (.label (Symbol.ofText name) (← g.readSingle ts))
  | "space" => readReserve ts
  | "text" => return .item (.textSegment (← readSegment defaultTextSegment ts))
  | "data" => return .item (.dataSegment (← readSegment defaultDataSegment ts))
  | "byte" => return .item (.data .byte .little (← g.readValues true ts))
  | "word" => return .item (.data .word .little (← g.readValues true ts))
  | "dword" => return .item (.data .dword .little (← g.readValues true ts))
  | "wordbe" => return .item (.data .word .big (← g.readValues true ts))
  | "dwordbe" => return .item (.data .dword .big (← g.readValues true ts))
  | "scope" =>
    expectEnd ts
    return .item .scopeBegin
  | "scend" =>
    expectEnd ts
    return .item .scopeEnd
  | "macro" =>
    let (name, ts) ← readIdentifier "label" ts
    expectEnd ts
    return .item (.macroBegin name)
  | "macend" =>
    expectEnd ts
    return .item .macroEnd
  | _ => throw (.unknownDirective name)

end Setting

/-- Reads the phrase behind the labels of a line. -/
def readPhrase (g : Setting) (ts : List Token) : Except ParseError Phrase := do
  match Token.first ts with
  | .endOfLine | .endOfFile => return .nothing
  | .mark .dot =>
    let (name, ts) ← readIdentifier "label" ts.tail
    g.readDirective name ts
  | .mark .backtick => return .item (← g.readInvoke ts.tail)
  | _ => return .item (.instruction (← g.readInstruction ts))

end Source
end Assembler6502
