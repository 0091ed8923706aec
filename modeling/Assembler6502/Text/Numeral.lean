/-!
# Numerals

Numbers are read and written with the digits `0` to `9` and `a` to `f`. Reading takes either case of
a letter and refuses an empty numeral; writing pads with zeros up to a width.

## Main definitions

* `Text.readNumeral?`: the number that a numeral in some base denotes
* `Text.decimal`, `Text.hexLower`, `Text.hexUpper`: the numerals of a number
-/

namespace Assembler6502
namespace Text

/-- The value of a digit, if the base has that digit. -/
def digit? (base : Nat) (c : Char) : Option Nat :=
  let n := c.toNat
  let value? :=
    if 48 ≤ n ∧ n ≤ 57 then some (n - 48)
    else if 97 ≤ n ∧ n ≤ 122 then some (n - 87)
    else if 65 ≤ n ∧ n ≤ 90 then some (n - 55)
    else none
  value?.filter (· < base)

/-- Reads digits, the most significant first, behind those that gave `n`. -/
def readDigits? (base : Nat) (n : Nat) : List Char → Option Nat
  | [] => some n
  | c :: rest =>
    match digit? base c with
    | some d => readDigits? base (n * base + d) rest
    | none => none

/-- The number denoted by a numeral; `none` if it is empty or has a foreign character. -/
def readNumeral? (base : Nat) (cs : List Char) : Option Nat :=
  if cs.isEmpty then none else readDigits? base 0 cs

/-- The decimal numeral of an integer, with a minus sign before the digits of a negative one. -/
def decimal (n : Int) : String :=
  let digits := String.ofList (Nat.toDigits 10 n.natAbs)
  if n < 0 then "-" ++ digits else digits

/-- At least `width` hexadecimal digits, the letters in lower case. -/
def hexLower (width n : Nat) : String :=
  String.ofList ((Nat.toDigits 16 n).leftpad width '0')

/-- At least `width` hexadecimal digits, the letters in upper case. -/
def hexUpper (width n : Nat) : String :=
  String.ofList (((Nat.toDigits 16 n).map Char.toUpper).leftpad width '0')

end Text
end Assembler6502
