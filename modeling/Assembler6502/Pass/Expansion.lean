import Assembler6502.Pass.Basic

/-!
# Definition and expansion of macros

The first pass takes the definitions of macros out of the program and puts them into the macro
table. The second pass puts the statements that a call stands for in the place of the call. The
body of a macro may hold further calls, so this pass is repeated until there are none left.

## Main definitions

* `Pass.defineMacros`: takes definitions out
* `Pass.expandMacros`: puts expansions in
-/

namespace Assembler6502
namespace Pass

/-- Changes the macro table and reports what is wrong with the change. -/
def withMacros {μ : Type} (s : Sweep μ) (location : Location)
    (change : MacroTable → MacroTable × Except MacroError Unit) : Sweep μ :=
  let (macros, result) := change s.context.macros
  let s := { s with context.macros := macros }
  match result with
  | .ok _ => s
  | .error e => s.error location (.expansion e)

/-- Takes definitions out of the program. What is kept in mind is whether a definition was met
inside another one: the end of the outer one is then no fault of its own. -/
def defineMacros : Visit Bool := fun s id st =>
  let blank := Node.leaf id { st with item := .blank }
  let defining := s.context.macros.isDefining
  match st.item with
  | .macroBegin name =>
    if defining then
      ({ s.error st.location (.expansion .nestedDefinition) with memory := true }, .leaf id st)
    else (withMacros s st.location (·.define name), blank)
  | .macroEnd =>
    if defining then (withMacros s st.location MacroTable.endDefine, blank)
    else if s.memory then (s, .leaf id st)
    else (s.error st.location (.expansion .unmatchedEnd), .leaf id st)
  | _ =>
    if defining then (withMacros s st.location (·.capture (.statement st)), blank)
    else (s.mapContext (·.followStructure st), .leaf id st)

/-- A definition without an end is dropped at the end of the program. -/
def closeDefinition (c : Context) : Context :=
  let (macros, result) := c.macros.abandon
  let c := { c with macros }
  match result with
  | .ok _ => c
  | .error e => c.error .topLevel (.expansion e)

/-- Puts the statements that a call stands for in its place. The new statements are not visited in
the same pass. -/
def expandMacros : Visit Unit := fun s id st =>
  match st.item with
  | .invoke name arguments =>
    match s.context.macros.expand st.location name arguments with
    | .ok parts =>
      let (children, size) := Node.ofFragments s.size parts
      ({ s.setChanged with size }, .sequence id st.location children)
    | .error e =>
      (s.setChanged.error st.location (.expansion e), .leaf id { st with item := .blank })
  | _ => (s.mapContext (·.followStructure st), .leaf id st)

end Pass
end Assembler6502
