import Assembler6502.Source.Phrase
import Assembler6502.Token.Scanner

/-!
# Parsing a text

A parser goes over a text with two tokens in hand, the current one and the one ahead of it; what is
behind them is not scanned yet. It takes tokens one at a time, across the ends of lines as within
them. What takes a line to its end says so by a flag, so that after a failure it is known whether
the rest of the line is still to be skipped. A failure keeps the state that the parser has come to.

## Main definitions

* `Parser`: the two tokens in hand, and the text behind them
* `Parser.skipLine`: moves past the rest of a line
* `Parse`: computations that move a parser and may fail
* `Parse.expr`: takes an expression
* `Parser.takeLabels`, `Parse.phrase`: take the labels of a line, and the phrase behind them
-/

namespace Assembler6502

/-- The state of going over a text. -/
structure Parser where
  current : Token
  /-- The token behind the current one. -/
  ahead : Token
  /-- The place behind both. -/
  cursor : Cursor
  /-- The faults inside tokens that were scanned and are not reported yet. -/
  faults : List (Position × LexError) := []
  /-- Whether the end of the line has been taken. -/
  lineEnded : Bool := false

namespace Parser

/-- Moves to the next token. At the end of the text there is always one more end. -/
def advance (p : Parser) : Parser :=
  let s := p.cursor.next
  { p with current := p.ahead, ahead := s.token, cursor := s.after, faults := p.faults ++ s.errors }

/-- A place in a text, with the next two tokens in hand. -/
def ofCursor (c : Cursor) : Parser :=
  let empty : Parser := { current := default, ahead := default, cursor := c }
  empty.advance.advance

/-- The beginning of a text. -/
def ofText (text : List Char) : Parser :=
  ofCursor (.ofText text)

/-- At least as many tokens as there are up to the end of the text. Behind the two in hand, every
token but the end takes a character. -/
def room (p : Parser) : Nat :=
  p.cursor.rest.length + 3

/-- Moves to the end of a line, past at most `fuel` tokens. -/
def skipToEnd : Nat → Parser → Parser
  | 0, p => p
  | fuel + 1, p => if p.current.lexeme.isLineEnd then p else skipToEnd fuel p.advance

/-- Moves past the rest of a line. The end of the text is not moved past. -/
def skipLine (p : Parser) : Parser :=
  let p := p.skipToEnd p.room
  if p.current.lexeme = .endOfLine then p.advance else p

/-- Takes at most `fuel` labels. A name is a label if a colon is ahead of it; a star is an anonymous
label. The result tells how many anonymous labels there are then. -/
def takeLabels (count : Nat) : Nat → Parser → (List Symbol × Nat) × Parser
  | 0, p => (([], count), p)
  | fuel + 1, p =>
    match p.current.lexeme with
    | .identifier name =>
      if p.ahead.lexeme = .mark .colon then
        let ((labels, total), p) := takeLabels count fuel p.advance.advance
        ((Symbol.ofText name :: labels, total), p)
      else (([], count), p)
    | .mark .star =>
      let ((labels, total), p) := takeLabels (count + 1) fuel p.advance
      ((Expr.anonymousLabel (count + 1 : Nat) :: labels, total), p)
    | _ => (([], count), p)

end Parser

/-- A computation that moves a parser and may fail. -/
def Parse (α : Type) : Type :=
  Parser → Except ParseError α × Parser

namespace Parse

variable {α β : Type}

/-- A failure stops the computation where it has come to. -/
instance : Monad Parse where
  pure a := fun p => (.ok a, p)
  bind x f := fun p =>
    match x p with
    | (.ok a, p) => f a p
    | (.error e, p) => (.error e, p)

def fail (e : ParseError) : Parse α :=
  fun p => (.error e, p)

/-- What does not depend on the text. -/
def lift (x : Except ParseError α) : Parse α :=
  fun p => (x, p)

/-- What the current token is. -/
def current : Parse Lexeme :=
  fun p => (.ok p.current.lexeme, p)

def advance : Parse Unit :=
  fun p => (.ok (), p.advance)

def room : Parse Nat :=
  fun p => (.ok p.room, p)

/-- The complaint that something else was expected in the place of the current token. -/
def unexpected (what : String) : Parse α :=
  fun p => (.error (.expected what p.current.lexeme.text), p)

def expectMark (mark : Punctuation) (what : String) : Parse Unit := do
  if (← current) = .mark mark then advance else unexpected what

def expectIdentifier (what : String) : Parse String := do
  match ← current with
  | .identifier name =>
    advance
    return name
  | _ => unexpected what

def expectString : Parse String := do
  match ← current with
  | .string text =>
    advance
    return String.ofList text
  | _ => unexpected "string"

def expectRegister (register : String) : Parse Unit := do
  if (← current) = .identifier register then advance else unexpected register

/-- Takes the end of a line. -/
def expectEnd : Parse Unit := fun p =>
  match p.current.lexeme with
  | .endOfLine => (.ok (), { p.advance with lineEnded := true })
  | .endOfFile => (.ok (), { p with lineEnded := true })
  | l => (.error (.expected "end of line" l.text), p)

/-- Takes a comma if there is one. -/
def takeComma : Parse Bool := do
  if (← current) = .mark .comma then
    advance
    return true
  else return false

/-! ## Expressions -/

/-- The operator of a level that a lexeme stands for. -/
def operator? (level : Expr.Level) : Lexeme → Option Operator
  | .mark p => level p
  | _ => none

/-- Takes at most `fuel` operations of a level. -/
def operations (level : Expr.Level) (operand : Parse Expr) : Nat → Parse (List (Operator × Expr))
  | 0 => return []
  | fuel + 1 => do
    match operator? level (← current) with
    | none => return []
    | some op =>
      advance
      let e ← operand
      let rest ← operations level operand fuel
      return (op, e) :: rest

/-- Takes operands joined by the operators of a level. -/
def level (level : Expr.Level) (operand : Parse Expr) : Parse Expr := do
  let first ← operand
  let rest ← operations level operand (← room)
  return .chained first rest

/-- Takes operands joined by operators of any level. -/
def levels (atom : Parse Expr) : Parse Expr :=
  level Expr.bitwise (level Expr.additive (level Expr.multiplicative atom))

/-- Takes a run of at most `fuel` equal marks and returns how many there are. -/
def marks (mark : Punctuation) : Nat → Parse Nat
  | 0 => return 0
  | fuel + 1 => do
    if (← current) = .mark mark then
      advance
      let more ← marks mark fuel
      return more + 1
    else return 0

/-- Takes an operand with at most `depth` brackets and byte selectors inside each other, where
`count` anonymous labels stand before it. -/
def atom (count : Nat) : Nat → Parse Expr
  | 0 => do fail (.expectedExpression (← current).text)
  | depth + 1 => do
    match ← current with
    | .identifier name =>
      advance
      return .symbol (Symbol.ofText name)
    | .mark .caret =>
      advance
      return .programCounter
    | .mark .bracketLeft =>
      advance
      let e ← levels (atom count depth)
      expectMark .bracketRight "]"
      return e
    | .mark .plus =>
      let signs ← marks .plus (← room)
      return .symbol (Expr.anonymousLabel (count + signs))
    | .mark .minus =>
      let signs ← marks .minus (← room)
      return .symbol (Expr.anonymousLabel (count + 1 - signs))
    | .mark .greaterThan =>
      advance
      let e ← atom count depth
      return .highByte e
    | .mark .lessThan =>
      advance
      let e ← atom count depth
      return .lowByte e
    | l =>
      if l.isNumber then
        let v ← lift l.value
        advance
        return .constant v
      else fail (.expectedExpression l.text)

/-- Takes an expression, where `count` anonymous labels stand before it. -/
def expr (count : Nat) : Parse Expr := do
  levels (atom count (← room))

/-! ## Phrases -/

open Source (Setting Phrase)

/-- Takes an expression that fills the rest of the line. -/
def single (g : Setting) : Parse Expr := do
  let e ← expr g.count
  expectEnd
  return e

/-- Takes one expression or string. -/
def value (g : Setting) (translate : Bool) : Parse (List Expr) := do
  match ← current with
  | .string text =>
    advance
    return g.stringValues translate text
  | _ =>
    let e ← expr g.count
    return [e]

/-- Takes at most `fuel` expressions and strings with commas between them, and the end of the
line. -/
def valuesFrom (g : Setting) (translate : Bool) : Nat → Parse (List Expr)
  | 0 => unexpected "end of line"
  | fuel + 1 => do
    let first ← value g translate
    if ← takeComma then
      let rest ← valuesFrom g translate fuel
      return first ++ rest
    else
      expectEnd
      return first

/-- Takes expressions and strings with commas between them, and the end of the line. -/
def values (g : Setting) (translate : Bool) : Parse (List Expr) := do
  valuesFrom g translate (← room)

/-- Takes the name of an operation that the processor has. -/
def mnemonic (g : Setting) : Parse Mnemonic := do
  let name ← expectIdentifier "opcode"
  match (Mnemonic.ofText? name.toList).filter g.cpu.hasMnemonic with
  | some m => return m
  | none => fail (.unknownOpcode name)

/-- Takes what follows an operand in parentheses: `,x)`, `)`, or `),y`. -/
def pointerShape : Parse OperandShape := do
  if ← takeComma then
    expectRegister "x"
    expectMark .parenRight ")"
    return .pointerX
  else
    expectMark .parenRight ")"
    if ← takeComma then
      expectRegister "y"
      return .pointerY
    else return .pointer

/-- Takes what follows a plain operand: nothing, `,x` or `,y`. -/
def memoryShape : Parse OperandShape := do
  if ← takeComma then
    let l ← current
    if l = .identifier "x" then
      advance
      return .memoryX
    else if l = .identifier "y" then
      advance
      return .memoryY
    else unexpected "x or y"
  else return .memory

/-- Takes an instruction and the end of the line. -/
def instruction (g : Setting) : Parse Instruction := do
  let m ← mnemonic g
  match ← current with
  | .endOfLine | .endOfFile =>
    expectEnd
    return .implied m
  | .mark .hash =>
    advance
    let e ← expr g.count
    expectEnd
    return .resolved m (g.immediateMode m) e
  | .mark .parenLeft =>
    advance
    let e ← expr g.count
    let shape ← pointerShape
    expectEnd
    return .pending m shape e
  | _ =>
    let e ← expr g.count
    let shape ← memoryShape
    expectEnd
    return .pending m shape e

/-- Takes the call of a macro behind its mark. -/
def invoke (g : Setting) : Parse Item := do
  let name ← expectIdentifier "label"
  if (← current).isLineEnd then
    expectEnd
    return .invoke name []
  else return .invoke name (← values g true)

/-- Takes the name of a segment, which may be left out, and the end of the line. -/
def segment (default : String) : Parse String := do
  match ← current with
  | .identifier name =>
    advance
    expectEnd
    return name
  | _ =>
    expectEnd
    return default

/-- Takes the target of `.advance` and what to fill with. -/
def advanceItem (g : Setting) : Parse Item := do
  let target ← expr g.count
  if ← takeComma then
    let fill ← expr g.count
    expectEnd
    return .advance target fill
  else
    expectEnd
    return .advance target (.constant 0)

/-- Takes the name and the size of `.space`. The size is a numeral. -/
def reserve : Parse Phrase := do
  let name ← expectIdentifier "label"
  let l ← current
  if l.isNumber then
    let size ← lift l.value
    advance
    expectEnd
    return .reserve (Symbol.ofText name) size
  else unexpected "number"

/-- Takes the file, the offset and the length of `.incbin`. -/
def incbin (g : Setting) : Parse Phrase := do
  let name ← expectString
  if ← takeComma then
    let offset ← expr g.count
    if ← takeComma then
      let length ← expr g.count
      expectEnd
      return .incbin name offset (some length)
    else
      expectEnd
      return .incbin name offset none
  else
    expectEnd
    return .incbin name (.constant 0) none

/-- Takes a file name that fills the rest of the line. -/
def fileName : Parse String := do
  let name ← expectString
  expectEnd
  return name

/-- Takes the entries of `.charmap`, if there are any. -/
def charmap (g : Setting) : Parse Phrase := do
  if (← current).isLineEnd then
    expectEnd
    return .charmapReset
  else return .charmapEntries (← values g false)

/-- Takes what follows the name of a directive. -/
def directive (g : Setting) (name : String) : Parse Phrase := do
  match name with
  | "outfile" => return .outfile (← fileName)
  | "include" => return .include (← fileName) false
  | "require" => return .include (← fileName) true
  | "incbin" => incbin g
  | "charmap" => charmap g
  | "charmapbin" => return .charmapFile (← fileName)
  | "invoke" => return .item (← invoke g)
  | "org" => return .item (.setPc (← single g))
  | "checkpc" => return .item (.checkPc (← single g))
  | "advance" => return .item (← advanceItem g)
  | "alias" =>
    let name ← expectIdentifier "label"
    return .item (.label (Symbol.ofText name) (← single g))
  | "space" => reserve
  | "text" => return .item (.textSegment (← segment defaultTextSegment))
  | "data" => return .item (.dataSegment (← segment defaultDataSegment))
  | "byte" => return .item (.data .byte .little (← values g true))
  | "word" => return .item (.data .word .little (← values g true))
  | "dword" => return .item (.data .dword .little (← values g true))
  | "wordbe" => return .item (.data .word .big (← values g true))
  | "dwordbe" => return .item (.data .dword .big (← values g true))
  | "scope" =>
    expectEnd
    return .item .scopeBegin
  | "scend" =>
    expectEnd
    return .item .scopeEnd
  | "macro" =>
    let name ← expectIdentifier "label"
    expectEnd
    return .item (.macroBegin name)
  | "macend" =>
    expectEnd
    return .item .macroEnd
  | _ => fail (.unknownDirective name)

/-- Takes the phrase behind the labels of a line, and the end of the line. -/
def phrase (g : Setting) : Parse Phrase := do
  match ← current with
  | .endOfLine | .endOfFile =>
    expectEnd
    return .nothing
  | .mark .dot =>
    advance
    let name ← expectIdentifier "label"
    directive g name
  | .mark .backtick =>
    advance
    return .item (← invoke g)
  | _ => return .item (.instruction (← instruction g))

end Parse
end Assembler6502
