import Assembler6502.Text.Numeral

/-!
# Values

Every number of the assembler, be it an address, an operand or an intermediate result, is a signed
word of 64 bits. Sums, differences and products wrap around. The program counter is moved by
saturating sums instead, which stop at the ends of the range.

## Main definitions

* `Value`: a signed word of 64 bits
* `Value.floorDiv`: division rounded to the floor
* `Value.saturatingAdd`, `Value.saturatingSub`: sums and differences that stop at the ends
* `Value.ofNat?`: the word of a natural number that fits
-/

namespace Assembler6502

/-- A signed word of 64 bits. -/
abbrev Value := Int64

namespace Value

/-- The word of a natural number, if it fits. -/
def ofNat? (n : Nat) : Option Value :=
  if n ≤ Int64.maxValue.toInt.toNat then some (Int64.ofNat n) else none

/-- The word nearest to an integer. -/
def clamp (n : Int) : Value :=
  if n < Int64.minValue.toInt then Int64.minValue
  else if Int64.maxValue.toInt < n then Int64.maxValue
  else Int64.ofInt n

/-- The sum, or the end of the range beyond which it lies. -/
def saturatingAdd (a b : Value) : Value :=
  clamp (a.toInt + b.toInt)

/-- The difference, or the end of the range beyond which it lies. -/
def saturatingSub (a b : Value) : Value :=
  clamp (a.toInt - b.toInt)

/-- The quotient rounded to the floor: one less than the quotient rounded to zero where the
division leaves a remainder and the signs differ. The divisor is not zero. -/
def floorDiv (a b : Value) : Value :=
  let quotient := a / b
  if a % b != 0 && (decide (a < 0) != decide (b < 0)) then quotient - 1 else quotient

/-- The decimal numeral of a value. -/
def text (v : Value) : String :=
  Text.decimal v.toInt

/-- At least `width` upper case hexadecimal digits; a negative value shows its two's complement. -/
def hexUpper (width : Nat) (v : Value) : String :=
  Text.hexUpper width v.toUInt64.toNat

/-- Lower case hexadecimal digits, as few as possible; a negative value shows its two's
complement. -/
def hexLower (v : Value) : String :=
  Text.hexLower 1 v.toUInt64.toNat

end Value
end Assembler6502
