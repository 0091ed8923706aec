import Assembler6502.Expr.Stored

/-!
# The value of an expression

An expression has a value under a valuation, which gives the labels their values and the program
counter its place. Evaluation goes from left to right and stops at the first label without a value
and at the first division by zero. Validity asks only whether all labels have values, which is what
is known of an expression before the labels are placed.

## Main definitions

* `Valuation`: the values of labels and the program counter
* `EvalError`: why an expression has no value
* `Expr.evaluate`: the value under a valuation
* `Expr.isValid`: whether everything that the expression mentions is known
-/

namespace Assembler6502

/-- What the value of an expression depends on. -/
structure Valuation where
  /-- The value of a visible label. -/
  lookup : Symbol → Option Value
  /-- The program counter. -/
  pc : Value

/-- Why an expression has no value. -/
inductive EvalError where
  | unknownLabel (symbol : Symbol)
  | divisionByZero
  deriving DecidableEq, Repr

def EvalError.message : EvalError → String
  | unknownLabel symbol => "Unknown label '" ++ symbol.text ++ "'"
  | divisionByZero => "Division by zero"

/-- Applies an operator to words. Everything wraps, and division goes to the floor. -/
def Operator.apply : Operator → Value → Value → Except EvalError Value
  | multiply, a, b => .ok (a * b)
  | divide, a, b => if b = 0 then .error .divisionByZero else .ok (Value.floorDiv a b)
  | add, a, b => .ok (a + b)
  | subtract, a, b => .ok (a - b)
  | and, a, b => .ok (a &&& b)
  | or, a, b => .ok (a ||| b)
  | xor, a, b => .ok (a ^^^ b)

namespace Expr

mutual

/-- The value of an expression under a valuation. -/
def evaluate (ν : Valuation) : Expr → Except EvalError Value
  | constant v => .ok v
  | symbol s =>
    match ν.lookup s with
    | some v => .ok v
    | none => .error (.unknownLabel s)
  | programCounter => .ok ν.pc
  | highByte e => do
    let v ← evaluate ν e
    return (v >>> 8) &&& 0xff
  | lowByte e => do
    let v ← evaluate ν e
    return v &&& 0xff
  | chain first rest => do
    let v ← evaluate ν first
    evaluateRest ν v rest

/-- Applies the operations of a chain to the value reached so far. -/
def evaluateRest (ν : Valuation) (v : Value) : List (Operator × Expr) → Except EvalError Value
  | [] => .ok v
  | (op, e) :: rest => do
    let w ← evaluate ν e
    let u ← op.apply v w
    evaluateRest ν u rest

end

mutual

/-- Whether every symbol has a value and, where the program counter is used, `pcKnown` holds. What
is hardcoded is not looked into. -/
def Stored.isValid (ν : Valuation) (pcKnown : Bool) : Stored → Bool
  | .mk kind hardcoded => if hardcoded then true else Stored.validKind ν pcKnown kind

/-- Whether everything that an expression is made of is valid. -/
def Stored.validKind (ν : Valuation) (pcKnown : Bool) : Stored.Kind → Bool
  | .constant _ => true
  | .symbol s => (ν.lookup s).isSome
  | .programCounter => pcKnown
  | .highByte e => Stored.isValid ν pcKnown e
  | .lowByte e => Stored.isValid ν pcKnown e
  | .chain first rest => Stored.isValid ν pcKnown first && Stored.allValid ν pcKnown rest

/-- Whether every operand of a list of operations is valid. -/
def Stored.allValid (ν : Valuation) (pcKnown : Bool) : List (Operator × Stored) → Bool
  | [] => true
  | (_, e) :: rest => Stored.isValid ν pcKnown e && Stored.allValid ν pcKnown rest

end

/-- Whether everything that the expression mentions is known. -/
def isValid (ν : Valuation) (pcKnown : Bool) (e : Expr) : Bool :=
  e.stored.isValid ν pcKnown

end Expr
end Assembler6502
