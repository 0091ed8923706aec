import Assembler6502.Expr.Basic

/-!
# Stored expressions

An expression is stored with a flag that says whether its value depends on neither labels nor the
program counter. The flag is worked out once, when the expression is made, from the flags of its
operands. It is what decides at once whether an expression may be evaluated where nothing is known
yet, without going over the expression.

## Main definitions

* `Expr.Stored`: what an expression is made of, with its flag
* `Expr.Stored.make`: stores an expression over stored operands
* `Expr.stored`: an expression as it is stored
* `Expr.isHardcoded`: the expressions that need neither labels nor the program counter
-/

namespace Assembler6502
namespace Expr

mutual

/-- An expression with its flag. -/
inductive Stored where
  | mk (kind : Stored.Kind) (hardcoded : Bool)

/-- What an expression is made of, over stored operands. -/
inductive Stored.Kind where
  | constant (value : Value)
  | symbol (symbol : Symbol)
  | programCounter
  | highByte (operand : Stored)
  | lowByte (operand : Stored)
  | chain (first : Stored) (rest : List (Operator × Stored))

end

namespace Stored

/-- The flag. -/
def hardcoded : Stored → Bool
  | mk _ hardcoded => hardcoded

/-- The flag that an expression is given when it is made. -/
def Kind.flag : Kind → Bool
  | constant _ => true
  | symbol _ => false
  | programCounter => false
  | highByte e => e.hardcoded
  | lowByte e => e.hardcoded
  | chain first rest => first.hardcoded && rest.all fun x => x.2.hardcoded

/-- Stores an expression. -/
def make (kind : Kind) : Stored :=
  mk kind kind.flag

end Stored

mutual

/-- An expression as it is stored: its parts are made first. -/
def stored : Expr → Stored
  | constant v => .make (.constant v)
  | symbol s => .make (.symbol s)
  | programCounter => .make .programCounter
  | highByte e => .make (.highByte (stored e))
  | lowByte e => .make (.lowByte (stored e))
  | chain first rest => .make (.chain (stored first) (storedRest rest))

/-- The operations of a chain as they are stored. -/
def storedRest : List (Operator × Expr) → List (Operator × Stored)
  | [] => []
  | (op, e) :: rest => (op, stored e) :: storedRest rest

end

/-- Whether the value depends on neither labels nor the program counter, as the flag says. -/
def isHardcoded (e : Expr) : Bool :=
  e.stored.hardcoded

end Expr
end Assembler6502
