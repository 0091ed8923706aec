import Assembler6502.Item

/-!
# Fragments

A fragment is a part of a program that does not stand in one yet: a statement, or a sequence of
fragments. The same fragment can enter a program many times, as the body of a macro does, and is
numbered anew each time.

## Main definitions

* `Fragment`: a statement or a sequence of fragments
* `Fragment.location`, `Fragment.text`, `Fragment.expressions`: what a fragment shows of itself
* `Fragment.moveTo`: the same fragment at another place
-/

namespace Assembler6502

/-- A statement or a sequence of fragments. -/
inductive Fragment where
  | statement (statement : Statement)
  | sequence (location : Location) (parts : List Fragment)
  deriving Inhabited

namespace Fragment

/-- A statement made of an item and its location. -/
def ofItem (location : Location) (item : Item) : Fragment :=
  statement ⟨location, item⟩

/-- The place that a fragment came from. -/
def location : Fragment → Location
  | statement s => s.location
  | sequence location _ => location

/-- The same fragment at another place. The parts of a sequence stay where they are. -/
def moveTo (location : Location) : Fragment → Fragment
  | statement s => statement { s with location }
  | sequence _ parts => sequence location parts

/-- The expressions that a fragment mentions itself; those of its parts are not among them. -/
def expressions : Fragment → List Expr
  | statement s => s.item.expressions
  | sequence _ _ => []

/-- How a sequence of so many nodes is shown. -/
def sequenceText (count : Nat) : String :=
  "Sequence (" ++ Text.decimal count ++ " nodes)"

/-- The fragment as a dump of the program shows it. -/
def text : Fragment → String
  | statement s => s.item.text
  | sequence _ parts => sequenceText parts.length

end Fragment
end Assembler6502
