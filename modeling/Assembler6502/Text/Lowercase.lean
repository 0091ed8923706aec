import Assembler6502.Text.Blank
import Assembler6502.Text.CaseTable

/-!
# Lower case

Names are compared without regard to case, so every name is brought to lower case when it is read.
Lowercasing works on whole words because of one letter: a capital sigma that ends a word becomes a
final sigma. One other letter grows, the dotted capital I, whose lower case form keeps its dot as a
character of its own.

## Main definitions

* `Text.lowercase`: the lower case form of a text
-/

namespace Assembler6502
namespace Text

/-- The lower case form of one character, taken out of any word. -/
def lowercaseChar (c : Char) : List Char :=
  let n := c.toNat
  if n < 0x80 then [c.toLower]
  else if n = 0x130 then ['i', Char.ofNat 0x307]
  else
    match lowercaseRuns.find? fun r => r.first ≤ n && n ≤ r.last && (n - r.first) % r.step == 0 with
    | some r => [Char.ofNat (n + r.shift).toNat]
    | none => [c]

/-- Whether a code point lies in one of the spans. -/
def inSpans (spans : List (Nat × Nat)) (n : Nat) : Bool :=
  spans.any fun s => s.1 ≤ n && n < s.1 + s.2

/-- Whether the first character that is not case-ignorable is a cased letter. -/
def startsCased (cs : List Char) : Bool :=
  match cs.dropWhile fun c => inSpans caseIgnorableSpans c.toNat with
  | c :: _ => inSpans casedSpans c.toNat
  | [] => false

/-- Lowercases `rest`, which stands after the characters of `before`, the nearest of them first. -/
def lowercaseAfter (before : List Char) : List Char → List Char
  | [] => []
  | c :: rest =>
    let lowered :=
      if c = 'Σ' then
        if startsCased before && !startsCased rest then ['ς'] else ['σ']
      else lowercaseChar c
    lowered ++ lowercaseAfter (c :: before) rest

/-- The lower case form of a text. A capital sigma becomes a final sigma where a letter stands
before it in its word and none after it. -/
def lowercase (cs : List Char) : List Char :=
  lowercaseAfter [] cs

end Text
end Assembler6502
