import Assembler6502.Cpu
import Assembler6502.Diagnostics
import Assembler6502.MacroTable
import Assembler6502.Program

/-!
# Passes

Assembling goes over the program many times. A pass starts at the beginning of the program with the
labels known so far, visits the statements in order, and may replace each of them. All passes
follow scopes and segments in the same way, and those that need addresses move the program counter
over a statement in the same way, too.

## Main definitions

* `Context`: what passes share: environment, diagnostics, macros and processor
* `Context.followStructure?`: what scopes and segments do to the environment
* `Context.trackPc?`: what a statement does to the program counter
* `Workspace`: the program together with the context
* `Sweep`, `Visit`: the state of a pass, and what a pass does at a statement
-/

namespace Assembler6502

/-- What the passes over a program share. -/
structure Context where
  cpu : Cpu
  env : Environment := {}
  diagnostics : Diagnostics := {}
  macros : MacroTable := {}

namespace Context

def hasErrors (c : Context) : Bool :=
  c.diagnostics.hasErrors

def error (c : Context) (location : Location) (fault : Fault) : Context :=
  { c with diagnostics := c.diagnostics.error location fault }

def warn (c : Context) (location : Location) (warning : Warning) : Context :=
  { c with diagnostics := c.diagnostics.warn location warning }

/-- Changes the environment. -/
def mapEnv (c : Context) (f : Environment → Environment) : Context :=
  { c with env := f c.env }

/-- The value of an expression at this point. -/
def evaluate (c : Context) (e : Expr) : Except EvalError Value :=
  e.evaluate c.env.valuation

/-- The value of an expression at this point. An expression without a value is a fault, and counts
as zero. -/
def valueOf (c : Context) (location : Location) (e : Expr) : Value × Context :=
  match c.evaluate e with
  | .ok v => (v, c)
  | .error err => (0, c.error location (.evaluation err))

/-- Goes back to the beginning of the program. A scope that is still open is a fault. -/
def restart (c : Context) : Context :=
  let d := c.mapEnv Environment.restart
  match c.env.unclosed? with
  | none => d
  | some e => d.error .topLevel (.symbol e)

/-- What a statement that opens or closes a scope or changes the segment does; `none` for every
other statement, except for blanks, which do nothing. -/
def followStructure? (c : Context) (s : Statement) : Option Context :=
  match s.item with
  | .blank => some c
  | .textSegment name => some (c.mapEnv (·.switchSegment name true))
  | .dataSegment name => some (c.mapEnv (·.switchSegment name false))
  | .scopeBegin => some (c.mapEnv Environment.enterScope)
  | .scopeEnd =>
    match c.env.exitScope? with
    | .ok env => some { c with env }
    | .error e => some (c.error s.location (.symbol e))
  | _ => none

/-- Follows scopes and segments. -/
def followStructure (c : Context) (s : Statement) : Context :=
  (c.followStructure? s).getD c

/-- Moves the program counter over a statement the way the bytes of the statement do; `none` for
statements that have nothing to do with the program counter. -/
def trackPc? (c : Context) (s : Statement) : Option Context :=
  match s.item with
  | .instruction i => some (c.mapEnv (·.advancePc (Int64.ofNat i.size)))
  | .data width _ values =>
    some (c.mapEnv (·.advancePc (Int64.ofNat (width.bytes * values.length))))
  | .byteRange _ length _ =>
    match c.evaluate length with
    | .ok n => some (c.mapEnv (·.advancePc n))
    | .error _ => some c
  | .setPc target | .advance target _ =>
    let (v, c) := c.valueOf s.location target
    some (c.mapEnv (·.setPc v))
  | .checkPc _ | .label _ _ => some c
  | _ => none

/-- Follows addresses, scopes and segments. -/
def follow (c : Context) (s : Statement) : Context :=
  match c.trackPc? s with
  | some c => c
  | none => c.followStructure s

end Context

/-- The program, in the way in which it is kept, together with the context. -/
structure Workspace (π : Type := Program) where
  program : π
  context : Context

/-- The state of a pass: the context, the number of nodes, whether anything has changed, and what
the pass itself keeps in mind. -/
structure Sweep (μ : Type) where
  context : Context
  size : Nat
  changed : Bool := false
  memory : μ

/-- What a pass does at a statement: the new state, and the node that takes its place. -/
abbrev Visit (μ : Type) := Sweep μ → Nat → Statement → Sweep μ × Node

namespace Sweep

variable {μ : Type}

def mapContext (s : Sweep μ) (f : Context → Context) : Sweep μ :=
  { s with context := f s.context }

def error (s : Sweep μ) (location : Location) (fault : Fault) : Sweep μ :=
  s.mapContext (·.error location fault)

def warn (s : Sweep μ) (location : Location) (warning : Warning) : Sweep μ :=
  s.mapContext (·.warn location warning)

def mapEnv (s : Sweep μ) (f : Environment → Environment) : Sweep μ :=
  s.mapContext (·.mapEnv f)

def setChanged (s : Sweep μ) : Sweep μ :=
  { s with changed := true }

/-- The value of an expression at this point, zero if it has none. -/
def valueOf (s : Sweep μ) (location : Location) (e : Expr) : Value × Sweep μ :=
  let (v, context) := s.context.valueOf location e
  (v, { s with context })

end Sweep

/-- Leaves every statement in place and follows what happens at it. -/
def Visit.observe {μ : Type} (step : Sweep μ → Nat → Statement → Sweep μ) : Visit μ :=
  fun s id statement => (step s id statement, .leaf id statement)

end Assembler6502
