import Assembler6502.Symbol
import Assembler6502.Value

/-!
# Expressions

An expression is a constant, a symbol, the program counter, one byte of another expression, or a
chain of operations. A chain is worked off strictly from left to right; which operator binds
tighter is expressed by chains inside chains.

## Main definitions

* `Operator`: the binary operators
* `Expr`: expressions
* `Expr.chained`: a chain, or its first operand alone where no operation follows
* `Expr.text`: the written form
-/

namespace Assembler6502

/-- The binary operators. -/
inductive Operator where
  | multiply
  | divide
  | add
  | subtract
  | and
  | or
  | xor
  deriving DecidableEq, Repr

namespace Operator

/-- The operator written with a character. -/
def ofChar? : Char → Option Operator
  | '*' => some multiply
  | '/' => some divide
  | '+' => some add
  | '-' => some subtract
  | '&' => some and
  | '|' => some or
  | '^' => some xor
  | _ => none

/-- The character that an operator is written with. -/
def toChar : Operator → Char
  | multiply => '*'
  | divide => '/'
  | add => '+'
  | subtract => '-'
  | and => '&'
  | or => '|'
  | xor => '^'

end Operator

/-- An arithmetic expression over labels and the program counter. -/
inductive Expr where
  | constant (value : Value)
  | symbol (symbol : Symbol)
  | programCounter
  /-- Bits 8 to 15 of the operand. -/
  | highByte (operand : Expr)
  /-- Bits 0 to 7 of the operand. -/
  | lowByte (operand : Expr)
  /-- The operations are applied from left to right. -/
  | chain (first : Expr) (rest : List (Operator × Expr))
  deriving Inhabited

namespace Expr

/-- A chain of operations, or the first operand alone if there are none. -/
def chained (first : Expr) (rest : List (Operator × Expr)) : Expr :=
  if rest.isEmpty then first else chain first rest

/-- The program counter plus a constant. -/
def pcPlus (offset : Value) : Expr :=
  chained programCounter [(.add, constant offset)]

mutual

/-- The written form: operations stand in brackets with blanks around the operators. -/
def text : Expr → String
  | constant v => v.text
  | symbol s => s.text
  | programCounter => "^"
  | highByte e => ">" ++ text e
  | lowByte e => "<" ++ text e
  | chain first rest => "[" ++ text first ++ restText rest ++ "]"

/-- The written form of the operations of a chain. -/
def restText : List (Operator × Expr) → String
  | [] => ""
  | (op, e) :: rest => " " ++ op.toChar.toString ++ " " ++ text e ++ restText rest

end

end Expr
end Assembler6502
