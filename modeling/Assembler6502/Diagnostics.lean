import Assembler6502.Fault

/-!
# Diagnostics

The faults and warnings of a program, each with its place, in the order in which they were found.

## Main definitions

* `Located`: something at a place
* `Diagnostics`: the faults and warnings found so far
* `Diagnostics.report`, `Diagnostics.text`: how many faults there are, and all of them
-/

namespace Assembler6502

/-- Something at a place. -/
structure Located (α : Type) where
  location : Location
  value : α
  deriving DecidableEq, Repr

/-- The faults and warnings found so far, in order. -/
structure Diagnostics where
  errors : List (Located Fault) := []
  warnings : List (Located Warning) := []
  deriving DecidableEq, Repr, Inhabited

namespace Diagnostics

def error (d : Diagnostics) (location : Location) (fault : Fault) : Diagnostics :=
  { d with errors := d.errors ++ [⟨location, fault⟩] }

def warn (d : Diagnostics) (location : Location) (warning : Warning) : Diagnostics :=
  { d with warnings := d.warnings ++ [⟨location, warning⟩] }

def hasErrors (d : Diagnostics) : Bool :=
  !d.errors.isEmpty

/-- What was found here, and then what was found there. -/
def append (d e : Diagnostics) : Diagnostics :=
  ⟨d.errors ++ e.errors, d.warnings ++ e.warnings⟩

/-- The number of faults in words. -/
def report (d : Diagnostics) : String :=
  match d.errors.length with
  | 0 => "No errors"
  | 1 => "1 error"
  | n => Text.decimal n ++ " errors"

/-- A line for every fault, and the number of faults. -/
def text (d : Diagnostics) : String :=
  String.join (d.errors.map fun e => e.location.text ++ ": " ++ e.value.message ++ "\n") ++
    d.report

end Diagnostics
end Assembler6502
