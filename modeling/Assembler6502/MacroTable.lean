import Assembler6502.Fault
import Assembler6502.Fragment
import Assembler6502.Table

/-!
# Macros

A macro is a named list of fragments. While a definition is open, fragments are captured for its
body; closing it enters the macro into the table, where it stays. Expanding a macro yields a copy of
its body between two pairs of scope statements. The outer scope binds the arguments, as they are
valued at the call, to hidden names; the inner scope binds the parameters `_1`, `_2`, ... to the
hidden names, so that an argument may mention a label with the name of a parameter.

## Main definitions

* `Macro`, `MacroTable`: macros, and those defined so far
* `MacroTable.define`, `MacroTable.capture`, `MacroTable.endDefine`, `MacroTable.abandon`:
  definitions
* `MacroTable.expand`: the fragments that a call stands for
-/

namespace Assembler6502

/-- A named list of fragments. -/
structure Macro where
  name : String
  body : List Fragment

/-- A macro whose end has not been met yet. -/
structure OpenMacro where
  name : String
  body : List Fragment := []
  /-- Whether the name is taken, so that the body is to be dropped in the end. -/
  duplicate : Bool

/-- The macros defined so far, and the one being defined. -/
structure MacroTable where
  macros : Table String Macro := {}
  current : Option OpenMacro := none

namespace MacroTable

/-- The macro with a name. -/
def get? (t : MacroTable) (name : String) : Option Macro :=
  t.macros.get? name

/-- Whether a definition is open. -/
def isDefining (t : MacroTable) : Bool :=
  t.current.isSome

/-- Opens a definition. A name that is taken is a fault, but its body is still read over. -/
def define (t : MacroTable) (name : String) : MacroTable × Except MacroError Unit :=
  if t.isDefining then (t, .error .nestedDefinition)
  else
    let duplicate := t.macros.contains name
    ({ t with current := some { name, duplicate } },
      if duplicate then .error (.duplicate name) else .ok ())

/-- Adds a fragment to the body of the open definition. The beginning of another definition is
refused; inside of a sequence it is not looked for. -/
def capture (t : MacroTable) (part : Fragment) : MacroTable × Except MacroError Unit :=
  match part with
  | .statement ⟨_, .macroBegin _⟩ => (t, .error .nestedDefinition)
  | _ =>
    match t.current with
    | none => (t, .error .notDefining)
    | some m => ({ t with current := some { m with body := m.body ++ [part] } }, .ok ())

/-- Closes the open definition. -/
def endDefine (t : MacroTable) : MacroTable × Except MacroError Unit :=
  match t.current with
  | none => (t, .error .unmatchedEnd)
  | some m =>
    let macros := if m.duplicate then t.macros else t.macros.insert m.name ⟨m.name, m.body⟩
    ({ t with macros, current := none }, .ok ())

/-- Drops a definition that was never closed. -/
def abandon (t : MacroTable) : MacroTable × Except MacroError Unit :=
  match t.current with
  | none => (t, .ok ())
  | some _ => ({ t with current := none }, .error .unmatchedBegin)

/-- The hidden name of an argument, counted from one. -/
def hiddenName (n : Nat) : Symbol :=
  .inScope ("*" ++ Text.decimal n)

/-- The name of a parameter, counted from one. -/
def parameterName (n : Nat) : Symbol :=
  .inScope (Text.decimal n)

/-- Binds arguments, the first of them having number `n`, to their hidden names. -/
def bindArguments (n : Nat) : List Expr → List Item
  | [] => []
  | argument :: rest => .label (hiddenName n) argument :: bindArguments (n + 1) rest

/-- Binds `count` parameters, the first of them having number `n`, to the hidden names. -/
def bindParameters (n : Nat) : Nat → List Item
  | 0 => []
  | count + 1 => .label (parameterName n) (.symbol (hiddenName n)) :: bindParameters (n + 1) count

/-- The fragments that a call stands for. Those of the body are located both at the call and in the
definition. -/
def expand (t : MacroTable) (call : Location) (name : String) (arguments : List Expr) :
    Except MacroError (List Fragment) :=
  match t.get? name with
  | none => .error (.undefined name)
  | some m =>
    let opening :=
      [.scopeBegin] ++ bindArguments 1 arguments ++ [.scopeBegin] ++
        bindParameters 1 arguments.length
    let body := m.body.map fun part => part.moveTo (.expansion call part.location)
    let closing := [.scopeEnd, .scopeEnd]
    .ok (opening.map (.ofItem call) ++ body ++ closing.map (.ofItem call))

end MacroTable
end Assembler6502
