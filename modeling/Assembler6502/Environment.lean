import Assembler6502.Expr.Evaluation
import Assembler6502.Table

/-!
# The environment

What a pass over a program knows at the point it has reached: the values of labels, the scopes that
are open, and the program counter of every segment. Labels keep their values from one pass to the
next. Scopes are numbered in the order in which they are entered, from the beginning of each pass,
so a scope has the same number in every pass over the same program.

## Main definitions

* `Environment`: labels, scopes and segments
* `Environment.lookup`, `Environment.bind`: the value of a label
* `Environment.enterScope`, `Environment.exitScope?`: the scopes
* `Environment.switchSegment`, `Environment.setPc`, `Environment.advancePc`: the program counters
* `Environment.restart`: back to the beginning of the program
-/

namespace Assembler6502

/-- What can be wrong with labels and scopes. -/
inductive SymbolError where
  | duplicateLabel (symbol : Symbol)
  | circularLabel (symbol : Symbol)
  | circularReference (what : String)
  | unmatchedScope
  | unmatchedScopeEnd
  deriving DecidableEq, Repr

def SymbolError.message : SymbolError → String
  | duplicateLabel symbol => "Duplicate label definition '" ++ symbol.text ++ "'"
  | circularLabel symbol => "Undefined or circular dependency for label '" ++ symbol.text ++ "'"
  | circularReference what => "Undefined or circular reference on " ++ what
  | unmatchedScope => "Unmatched .scope"
  | unmatchedScopeEnd => "Unmatched .scend"

/-- The segment in which a program starts. -/
def defaultTextSegment : String := "*text-default*"

/-- The data segment without a name. -/
def defaultDataSegment : String := "*data-default*"

/-- Labels, open scopes and segments at one point of a program. -/
structure Environment where
  /-- The values of global labels. -/
  globals : Table String Value := {}
  /-- The values of local labels, scope by scope. -/
  locals : Table Nat (Table String Value) := {}
  /-- The open scopes inside the outermost one, the innermost first. -/
  inner : List Nat := []
  /-- The number of scopes entered so far. The outermost scope has number zero. -/
  scopeCount : Nat := 0
  /-- The program counter of the current segment. -/
  pc : Value := 0
  /-- The program counters of the segments left so far. -/
  segments : Table String Value := {}
  /-- The name of the current segment. -/
  segment : String := defaultTextSegment
  /-- Whether the current segment takes bytes. -/
  writable : Bool := true

namespace Environment

/-- All open scopes, the innermost first. -/
def scopes (env : Environment) : List Nat :=
  env.inner ++ [0]

/-- The number of the innermost scope. -/
def innermostScope (env : Environment) : Nat :=
  env.inner.headD 0

/-- The local labels of a scope. -/
def localsOf (env : Environment) (scope : Nat) : Table String Value :=
  (env.locals.get? scope).getD {}

/-- The value of a visible label. Local labels are sought from the innermost scope outwards. -/
def lookup (env : Environment) : Symbol → Option Value
  | .global name => env.globals.get? name
  | .inScope name => env.scopes.findSome? fun scope => (env.localsOf scope).get? name

/-- Whether a label is visible. -/
def contains (env : Environment) (symbol : Symbol) : Bool :=
  (env.lookup symbol).isSome

/-- What expressions see of an environment. -/
def valuation (env : Environment) : Valuation :=
  ⟨env.lookup, env.pc⟩

/-- Gives a label a value; a local label belongs to the innermost scope. -/
def bind (env : Environment) (symbol : Symbol) (value : Value) : Environment :=
  match symbol with
  | .global name => { env with globals := env.globals.insert name value }
  | .inScope name =>
    let scope := env.innermostScope
    { env with locals := env.locals.insert scope ((env.localsOf scope).insert name value) }

def setPc (env : Environment) (pc : Value) : Environment :=
  { env with pc }

/-- Moves the program counter on, at most to the end of the range. -/
def advancePc (env : Environment) (amount : Value) : Environment :=
  { env with pc := Value.saturatingAdd env.pc amount }

/-- Leaves the current segment for another one, which goes on where it was left. A segment that was
never entered starts at zero. -/
def switchSegment (env : Environment) (name : String) (writable : Bool) : Environment :=
  let segments := env.segments.insert env.segment env.pc
  { env with segments, segment := name, pc := (segments.get? name).getD 0, writable }

/-- Opens a scope with a number of its own. -/
def enterScope (env : Environment) : Environment :=
  let scope := env.scopeCount + 1
  { env with scopeCount := scope, inner := scope :: env.inner }

/-- Closes the innermost scope. The outermost scope cannot be closed. -/
def exitScope? (env : Environment) : Except SymbolError Environment :=
  match env.inner with
  | [] => .error .unmatchedScopeEnd
  | _ :: inner => .ok { env with inner }

/-- Goes back to the beginning of the program and keeps the values of all labels. -/
def restart (env : Environment) : Environment :=
  { globals := env.globals, locals := env.locals }

/-- A scope that is still open at the end of the program is a fault. -/
def unclosed? (env : Environment) : Option SymbolError :=
  if env.inner.isEmpty then none else some .unmatchedScope

/-- One line of the listing of an environment. -/
def bindingText (name : String) (value : Value) : String :=
  "  " ++ name ++ " = $" ++ Value.hexUpper 4 value ++ " (" ++ value.text ++ ")\n"

/-- The listing of an environment: global labels, local labels by scope, each sorted by name, and
the program counter. -/
def text (env : Environment) : String :=
  let globals := env.globals.sortedEntries.map fun (name, value) => bindingText name value
  let scopes := env.locals.entries.mergeSort fun a b => decide (a.1 ≤ b.1)
  let locals := scopes.map fun (scope, labels) =>
    "Scope " ++ Text.decimal scope ++ ":\n" ++
      String.join (labels.sortedEntries.map fun (name, value) => bindingText ("_" ++ name) value)
  "Global labels:\n" ++ String.join globals ++ String.join locals ++
    "Program counter: $" ++ Value.hexUpper 4 env.pc

end Environment
end Assembler6502
