import Assembler6502.Text.Numeral

/-!
# Locations

Where something stands: nowhere in particular, on a line of a source file, or in the body of a macro
that was expanded from a call.

## Main definitions

* `Location`: a place in the sources
* `Location.text`: its short form, which leaves the column out
-/

namespace Assembler6502

/-- A place in the sources. -/
inductive Location where
  | topLevel
  | source (file : String) (line column : Nat)
  | expansion (call definition : Location)
  deriving DecidableEq, Repr, Inhabited

/-- The place as diagnostics show it. -/
def Location.text : Location → String
  | topLevel => "<Top Level>"
  | source file line _ => file ++ ":" ++ Text.decimal line
  | expansion call definition => call.text ++ "->" ++ definition.text

end Assembler6502
