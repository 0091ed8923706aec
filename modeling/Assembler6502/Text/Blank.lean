/-!
# Blank characters

The characters that separate words: the Unicode property White_Space. It is wider than the blanks
of ASCII (a no-break space and the ideographic space are blank) but leaves out the zero-width space
and the byte order mark.

## Main definitions

* `Text.isBlank`: the characters that separate words
-/

namespace Assembler6502
namespace Text

/-- The blank characters as closed ranges of code points, in ascending order. -/
def blankRanges : List (Nat × Nat) :=
  [(0x09, 0x0d), (0x20, 0x20), (0x85, 0x85), (0xa0, 0xa0), (0x1680, 0x1680), (0x2000, 0x200a),
    (0x2028, 0x2029), (0x202f, 0x202f), (0x205f, 0x205f), (0x3000, 0x3000)]

/-- Whether a code point lies in one of the ranges. -/
def inRanges (ranges : List (Nat × Nat)) (n : Nat) : Bool :=
  ranges.any fun r => r.1 ≤ n && n ≤ r.2

/-- A blank separates words. -/
def isBlank (c : Char) : Bool :=
  inRanges blankRanges c.toNat

end Text
end Assembler6502
