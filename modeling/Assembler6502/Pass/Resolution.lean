import Assembler6502.Pass.Basic
import Assembler6502.Text.Lowercase

/-!
# Resolution of labels

Before labels get their values it has to be clear which labels have values at all. Discovery binds
every label whose expression mentions only labels that are bound already, and is repeated until it
finds no more. What is unbound then is undefined or depends on itself, and is reported. Once
labels are bound, every expression is tried, and once instructions have sizes, every label is set
to the value of its expression.

## Main definitions

* `Discovery`: what the discovery of labels keeps in mind from round to round
* `Pass.initLabels`: binds what can be bound and reports labels that are defined twice
* `Pass.checkCircularity`: reports what cannot be bound
* `Pass.checkExpressions`: tries every expression
* `Pass.updateLabels`: sets every label to the value of its expression
-/

namespace Assembler6502

/-- What the discovery of labels keeps in mind. Definitions are known by scope and name, where
global labels have no scope. -/
structure Discovery where
  /-- The node that defined a label first. -/
  definitions : Table (Option Nat × String) Nat := {}
  /-- The nodes that were reported to define a label again. -/
  reported : List Nat := []
  /-- The number of rounds begun. -/
  rounds : Nat := 0
  /-- Whether the program counter is known at this point. -/
  pcKnown : Bool := true

namespace Discovery

/-- At the beginning of a round the program counter is known. -/
def nextRound (d : Discovery) : Discovery :=
  { d with rounds := d.rounds + 1, pcKnown := true }

/-- The scope and the name by which a label is defined. -/
def key (env : Environment) : Symbol → Option Nat × String
  | .global name => (none, name)
  | .inScope name => (some env.innermostScope, name)

end Discovery

namespace Pass

/-- The names of the registers. -/
def registerNames : List String := ["a", "x", "y"]

/-- The warning that a label is named like a register or an operation. -/
def nameWarning? (cpu : Cpu) : Symbol → Option Warning
  | .global name =>
    if registerNames.contains (String.ofList (Text.lowercase name.toList)) then
      some (.registerNameAsLabel name)
    else if (Mnemonic.ofText? name.toList).any cpu.hasMnemonic then
      some (.opcodeNameAsLabel name)
    else none
  | .inScope _ => none

/-- Notes that a node defines a label. The second node to define a label is at fault, once. -/
def noteDefinition (s : Sweep Discovery) (id : Nat) (location : Location) (symbol : Symbol) :
    Sweep Discovery :=
  let d := s.memory
  let key := Discovery.key s.context.env symbol
  match d.definitions.get? key with
  | none => { s with memory := { d with definitions := d.definitions.insert key id } }
  | some first =>
    if first = id || d.reported.contains id then s
    else
      { s.error location (.symbol (.duplicateLabel symbol)) with
        memory := { d with reported := id :: d.reported } }

/-- Binds a label to zero if its expression is valid and it is not bound yet. -/
def bindIfValid (s : Sweep Discovery) (symbol : Symbol) (value : Expr) : Sweep Discovery :=
  let env := s.context.env
  if value.isValid env.valuation s.memory.pcKnown && !env.contains symbol then
    (s.mapEnv (·.bind symbol 0)).setChanged
  else s

/-- Warns of the name of a label in the first round. -/
def warnOfName (s : Sweep Discovery) (location : Location) (symbol : Symbol) : Sweep Discovery :=
  if s.memory.rounds = 1 then
    match nameWarning? s.context.cpu symbol with
    | some warning => s.warn location warning
    | none => s
  else s

/-- Binds the labels that can be bound. -/
def initLabels : Visit Discovery := Visit.observe fun s id st =>
  match st.item with
  | .setPc target | .advance target _ =>
    let pcKnown := target.isValid s.context.env.valuation s.memory.pcKnown
    { s with memory.pcKnown := pcKnown }
  | .label symbol value =>
    let s := noteDefinition s id st.location symbol
    let s := bindIfValid s symbol value
    warnOfName s st.location symbol
  | _ => s.mapContext (·.followStructure st)

/-- Moves the program counter to a target that has to be valid. What is kept in mind is whether the
program counter is known. -/
def checkTarget (s : Sweep Bool) (st : Statement) (target : Expr) (what : String) : Sweep Bool :=
  let known := target.isValid s.context.env.valuation s.memory
  let s := { s with memory := known }
  if known then s else s.error st.location (.symbol (.circularReference what))

/-- Reports labels and addresses that will never have a value. -/
def checkCircularity : Visit Bool := Visit.observe fun s _ st =>
  match st.item with
  | .setPc target => checkTarget s st target "program counter set"
  | .advance target _ => checkTarget s st target ".advance"
  | .checkPc target =>
    if target.isValid s.context.env.valuation s.memory then s
    else s.error st.location (.symbol (.circularReference "program counter check"))
  | .label symbol value =>
    if value.isValid s.context.env.valuation s.memory then s
    else s.error st.location (.symbol (.circularLabel symbol))
  | _ => s.mapContext (·.followStructure st)

/-- Reports an expression without a value. -/
def checkExpression (location : Location) (c : Context) (e : Expr) : Context :=
  match c.evaluate e with
  | .ok _ => c
  | .error err => c.error location (.evaluation err)

/-- Tries every expression. Addresses are not tracked yet. -/
def checkExpressions : Visit Unit := Visit.observe fun s _ st =>
  s.mapContext fun c =>
    match c.followStructure? st with
    | some c => c
    | none => st.item.expressions.foldl (checkExpression st.location) c

/-- Sets every label to the value of its expression. -/
def updateLabels : Visit Unit := Visit.observe fun s _ st =>
  match st.item with
  | .label symbol value =>
    let (v, s) := s.valueOf st.location value
    let s := if s.context.env.lookup symbol = some v then s else s.setChanged
    s.mapEnv (·.bind symbol v)
  | _ => s.mapContext (·.follow st)

end Pass
end Assembler6502
