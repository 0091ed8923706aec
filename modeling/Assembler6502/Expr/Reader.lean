import Assembler6502.Fault

/-!
# Reading expressions

Expressions are read from the tokens of a line. From the loosest to the tightest binding there are
three levels of operators: `&`, `|`, `^`; then `+`, `-`; then `*`, `/`. The operators of one level
group to the left, and square brackets group anything. Where an operand is expected, a run of plus
signs stands for an anonymous label ahead and a run of minus signs for one behind.

## Main definitions

* `Lexeme.value`: the number that a numeral denotes
* `Expr.read`: reads an expression and returns the tokens behind it
-/

namespace Assembler6502

/-- What the first of some tokens is. Behind the last token there is nothing but the end. -/
def Token.first : List Token → Lexeme
  | [] => .endOfFile
  | t :: _ => t.lexeme

@[simp]
theorem Token.first_cons (t : Token) (ts : List Token) : first (t :: ts) = t.lexeme :=
  rfl

/-- The complaint that something else was expected before some tokens. -/
def ParseError.unexpected (what : String) (ts : List Token) : ParseError :=
  .expected what (Token.first ts).text

/-- Moves past a mark. -/
def Token.expectMark (mark : Punctuation) (what : String) (ts : List Token) :
    Except ParseError (List Token) :=
  if Token.first ts = .mark mark then .ok ts.tail else .error (.unexpected what ts)

namespace Lexeme

/-- The value of a numeral in some base, which has to fit into a word. -/
def numeralValue (base : Nat) (kind : String) (digits : List Char) : Except ParseError Value :=
  match (Text.readNumeral? base digits).bind Value.ofNat? with
  | some v => .ok v
  | none => .error (.invalidNumber kind (String.ofList digits))

/-- The number that a lexeme denotes. A character stands for its code point. -/
def value : Lexeme → Except ParseError Value
  | hex digits => numeralValue 16 "hexadecimal" digits
  | binary digits => numeralValue 2 "binary" digits
  | octal digits => numeralValue 8 "octal" digits
  | decimal digits =>
    if digits.all Char.isDigit then numeralValue 10 "decimal" digits
    else .error (.identifierStartsWithDigit (String.ofList digits))
  | character [c] => .ok (Int64.ofNat c.toNat)
  | character cs => .error (.invalidCharacter (String.ofList cs))
  | l => .error (.expectedExpression l.text)

end Lexeme

namespace Expr

/-- The anonymous label with an index. -/
def anonymousLabel (index : Int) : Symbol :=
  .global ("*" ++ Text.decimal index)

/-- Reads part of a line and returns the tokens behind it. -/
abbrev Reader (α : Type) := List Token → Except ParseError (α × List Token)

/-- A level of operators. -/
abbrev Level := Punctuation → Option Operator

/-- The level that binds loosest. -/
def bitwise : Level
  | .ampersand => some .and
  | .pipe => some .or
  | .caret => some .xor
  | _ => none

def additive : Level
  | .plus => some .add
  | .minus => some .subtract
  | _ => none

/-- The level that binds tightest. -/
def multiplicative : Level
  | .star => some .multiply
  | .slash => some .divide
  | _ => none

/-- The operator of a level that some tokens start with. -/
def leadingOperator? (level : Level) : List Token → Option Operator
  | ⟨.mark p, _⟩ :: _ => level p
  | _ => none

/-- Reads at most `fuel` operations of a level. An operation takes at least two tokens. -/
def readOperations (level : Level) (operand : Reader Expr) :
    Nat → Reader (List (Operator × Expr))
  | 0, ts => .ok ([], ts)
  | fuel + 1, ts =>
    match leadingOperator? level ts with
    | none => .ok ([], ts)
    | some op => do
      let (e, ts) ← operand ts.tail
      let (rest, ts) ← readOperations level operand fuel ts
      return ((op, e) :: rest, ts)

/-- Reads operands joined by the operators of a level. -/
def readLevel (level : Level) (operand : Reader Expr) : Reader Expr := fun ts => do
  let (first, ts) ← operand ts
  let (rest, ts) ← readOperations level operand ts.length ts
  return (chained first rest, ts)

/-- Reads operands joined by operators of any level. -/
def readLevels (atom : Reader Expr) : Reader Expr :=
  readLevel bitwise (readLevel additive (readLevel multiplicative atom))

/-- Whether a token is a given mark. -/
def isMark (mark : Punctuation) (t : Token) : Bool :=
  t.lexeme = .mark mark

/-- Reads an operand with at most `depth` brackets and byte selectors inside each other, where
`count` anonymous labels stand before it. -/
def readAtom (count : Nat) : Nat → Reader Expr
  | 0, ts => .error (.expectedExpression (Token.first ts).text)
  | depth + 1, ts =>
    match ts with
    | [] => .error (.expectedExpression (Token.first ts).text)
    | t :: rest =>
      match t.lexeme with
      | .identifier name => .ok (.symbol (Symbol.ofText name), rest)
      | .mark .caret => .ok (.programCounter, rest)
      | .mark .bracketLeft => do
        let (e, rest) ← readLevels (readAtom count depth) rest
        let rest ← Token.expectMark .bracketRight "]" rest
        return (e, rest)
      | .mark .plus =>
        let signs := ts.takeWhile (isMark .plus)
        .ok (.symbol (anonymousLabel (count + signs.length)), ts.dropWhile (isMark .plus))
      | .mark .minus =>
        let signs := ts.takeWhile (isMark .minus)
        .ok (.symbol (anonymousLabel (count + 1 - signs.length)), ts.dropWhile (isMark .minus))
      | .mark .greaterThan => do
        let (e, rest) ← readAtom count depth rest
        return (.highByte e, rest)
      | .mark .lessThan => do
        let (e, rest) ← readAtom count depth rest
        return (.lowByte e, rest)
      | l =>
        if l.isNumber then do
          let v ← l.value
          return (.constant v, rest)
        else .error (.expectedExpression l.text)

/-- Reads an expression, where `count` anonymous labels stand before it. Every bracket and every
selector takes a token, so the number of tokens bounds their depth. -/
def read (count : Nat) : Reader Expr := fun ts =>
  readLevels (readAtom count ts.length) ts

end Expr
end Assembler6502
