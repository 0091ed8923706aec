import Assembler6502.Assembly

/-!
# Arguments

The arguments of the command line are read from left to right. An argument that starts with a dash
gives options, by one long name or by any number of short ones; an option that takes a value finds
it behind an equals sign, in the rest of the argument or in the next argument. Everything else is an
operand, and so is a single dash. Behind a double dash there are only operands.

The first operand names the command, and the options of a command stand behind its name. Asking for
help or for the version ends the reading at once, so only mistakes further to the left count.

## Main definitions

* `Flag`: the options
* `UsageError`: what can be wrong with arguments
* `Given`: the options and operands read so far
* `Request`: what is asked for
* `Request.ofArguments`: reads the arguments
-/

namespace Assembler6502
namespace CommandLine

/-- The options. -/
inductive Flag where
  | help
  | version
  | verbose
  | trace
  | undocumented
  | wdc65C02
  | csg4502
  | output
  | noBranchExtend
  | noWarnings
  | quiet
  | origin
  deriving DecidableEq, Repr

namespace Flag

/-- The name behind two dashes. -/
def long : Flag → String
  | help => "help"
  | version => "version"
  | verbose => "verbose"
  | trace => "trace"
  | undocumented => "undoc"
  | wdc65C02 => "65c02"
  | csg4502 => "4502"
  | output => "output"
  | noBranchExtend => "no-branch-extend"
  | noWarnings => "no-warn"
  | quiet => "quiet"
  | origin => "origin"

/-- The name behind one dash, if there is one. -/
def short? : Flag → Option Char
  | help => some 'h'
  | version => some 'V'
  | verbose => some 'v'
  | undocumented => some 'u'
  | wdc65C02 => some 'c'
  | output => some 'o'
  | quiet => some 'q'
  | trace | csg4502 | noBranchExtend | noWarnings | origin => none

/-- Whether a value follows. -/
def takesValue : Flag → Bool
  | output | origin => true
  | _ => false

/-- The options that are understood everywhere. -/
def shared : List Flag :=
  [help, version, verbose]

/-- The options that choose a processor; at most one may be given. -/
def processors : List Flag :=
  [undocumented, wdc65C02, csg4502]

/-- The options before the name of a command. -/
def ofProgram : List Flag :=
  shared ++ [trace]

/-- The options of assembling. -/
def ofAssemble : List Flag :=
  shared ++ processors ++ [output, noBranchExtend, noWarnings, quiet]

/-- The options of disassembling. -/
def ofDisassemble : List Flag :=
  shared ++ processors ++ [origin]

end Flag

/-- What can be wrong with arguments. -/
inductive UsageError where
  | unknownOption (argument : String)
  | unexpectedValue (flag : Flag)
  | missingValue (flag : Flag)
  | invalidValue (flag : Flag) (value : String)
  | repeated (flag : Flag)
  | conflict (first second : Flag)
  | emptyOperand
  | unexpectedOperand (operand : String)
  | missingOperand
  | missingCommand
  | unknownCommand (name : String)
  deriving DecidableEq, Repr

def UsageError.message : UsageError → String
  | unknownOption argument => "unknown option '" ++ argument ++ "'"
  | unexpectedValue flag => "--" ++ flag.long ++ " takes no value"
  | missingValue flag => "--" ++ flag.long ++ " needs a value"
  | invalidValue flag value => "invalid value '" ++ value ++ "' for --" ++ flag.long
  | repeated flag => "--" ++ flag.long ++ " is given more than once"
  | conflict first second => "--" ++ first.long ++ " cannot be used with --" ++ second.long
  | emptyOperand => "a file needs a name"
  | unexpectedOperand operand => "unexpected argument '" ++ operand ++ "'"
  | missingOperand => "no file is given"
  | missingCommand => "no command is given"
  | unknownCommand name => "unknown command '" ++ name ++ "'"

/-- Why the reading of arguments ends before their end. -/
inductive Halt where
  | help
  | version
  | misuse (error : UsageError)
  deriving DecidableEq, Repr

/-- The last address of the memory. -/
def maxAddress : Nat := 0xffff

/-- An address: hexadecimal behind a dollar sign or `0x`, otherwise decimal. A plus sign may stand
before the digits. -/
def address? (text : String) : Option Nat :=
  let (base, digits) :=
    match text.toList with
    | '$' :: digits => (16, digits)
    | '0' :: 'x' :: digits => (16, digits)
    | digits => (10, digits)
  let digits :=
    match digits with
    | '+' :: digits => digits
    | digits => digits
  (Text.readNumeral? base digits).filter (· ≤ maxAddress)

/-- Whether a text can be the value of an option: a file needs a name, and an origin is an
address. -/
def Flag.accepts : Flag → String → Bool
  | .output, value => !value.isEmpty
  | .origin, value => (address? value).isSome
  | _, _ => true

/-- The options and operands read so far. -/
structure Given where
  /-- The options with their values, which are empty for options that take none. -/
  flags : List (Flag × String) := []
  operands : List String := []
  /-- The option whose value is the next argument. -/
  pending : Option Flag := none
  /-- Whether only operands can follow. -/
  operandsOnly : Bool := false

namespace Given

def has (g : Given) (flag : Flag) : Bool :=
  g.flags.any (·.1 == flag)

/-- The value of an option. -/
def value? (g : Given) (flag : Flag) : Option String :=
  g.flags.lookup flag

/-- Gives an option. Only verbosity can be given more than once. -/
def give (g : Given) (flag : Flag) (value : String) : Except Halt Given :=
  match flag with
  | .help => .error .help
  | .version => .error .version
  | _ =>
    if !flag.accepts value then .error (.misuse (.invalidValue flag value))
    else if flag != .verbose && g.has flag then .error (.misuse (.repeated flag))
    else .ok { g with flags := g.flags ++ [(flag, value)] }

/-- Adds an operand. At most `limit` are wanted, if there is a limit. -/
def addOperand (limit : Option Nat) (g : Given) (operand : String) : Except Halt Given :=
  if operand.isEmpty then .error (.misuse .emptyOperand)
  else if limit.any (· ≤ g.operands.length) then .error (.misuse (.unexpectedOperand operand))
  else .ok { g with operands := g.operands ++ [operand] }

/-- Reads an option with a long name. -/
def readLong (known : List Flag) (g : Given) (argument : List Char) : Except Halt Given :=
  let name := String.ofList (argument.takeWhile (· != '='))
  match known.find? (·.long == name), argument.dropWhile (· != '=') with
  | none, _ => .error (.misuse (.unknownOption name))
  | some flag, [] => if flag.takesValue then .ok { g with pending := flag } else g.give flag ""
  | some flag, _ :: value =>
    if flag.takesValue then g.give flag (String.ofList value)
    else .error (.misuse (.unexpectedValue flag))

/-- Reads options with short names. -/
def readShort (known : List Flag) (g : Given) : List Char → Except Halt Given
  | [] => .ok g
  | c :: rest =>
    match known.find? (·.short? == some c) with
    | none => .error (.misuse (.unknownOption c.toString))
    | some flag =>
      if flag.takesValue then
        match rest with
        | [] => .ok { g with pending := flag }
        | '=' :: value => g.give flag (String.ofList value)
        | value => g.give flag (String.ofList value)
      else do
        let g ← g.give flag ""
        g.readShort known rest

/-- Reads an argument. -/
def readArgument (known : List Flag) (limit : Option Nat) (g : Given) (argument : String) :
    Except Halt Given :=
  if g.operandsOnly then g.addOperand limit argument
  else
    match g.pending, argument.toList with
    | some flag, '-' :: _ :: _ => .error (.misuse (.missingValue flag))
    | some flag, _ => { g with pending := none }.give flag argument
    | none, ['-', '-'] => .ok { g with operandsOnly := true }
    | none, '-' :: '-' :: name => g.readLong known name
    | none, '-' :: c :: rest => g.readShort known (c :: rest)
    | none, _ => g.addOperand limit argument

/-- Reads the arguments behind the name of a command. -/
def readAll (known : List Flag) (limit : Option Nat) (g : Given) (arguments : List String) :
    Except Halt Given := do
  let g ← arguments.foldlM (readArgument known limit) g
  match g.pending with
  | some flag => .error (.misuse (.missingValue flag))
  | none => .ok g

/-- The processor chosen; without a choice it is the 6502. -/
def cpu (g : Given) : Except Halt Cpu :=
  match Flag.processors.filter g.has with
  | first :: second :: _ => .error (.misuse (.conflict first second))
  | [.undocumented] => .ok .undocumented
  | [.wdc65C02] => .ok .wdc65C02
  | [.csg4502] => .ok .csg4502
  | _ => .ok .mos6502

end Given

/-- What to assemble, and how. -/
structure AssembleRequest where
  files : List String
  options : Options
  output : Option String
  warnings : Bool
  quiet : Bool
  deriving DecidableEq, Repr

/-- What to disassemble, and how. -/
structure DisassembleRequest where
  file : String
  origin : Nat
  cpu : Cpu
  deriving DecidableEq, Repr

/-- Commands by their names. -/
inductive Command where
  | assemble
  | disassemble
  | help
  deriving DecidableEq, Repr

namespace Command

def ofName? : String → Option Command
  | "assemble" | "a" | "asm" => some assemble
  | "disassemble" | "d" | "dis" => some disassemble
  | "help" => some help
  | _ => none

def name : Command → String
  | assemble => "assemble"
  | disassemble => "disassemble"
  | help => "help"

end Command

/-- What is asked for. -/
inductive Request where
  | assemble (request : AssembleRequest)
  | disassemble (request : DisassembleRequest)
  | help
  /-- The version of the program, or that of one of its commands. -/
  | version (command : Option Command)
  | misuse (error : UsageError)
  deriving DecidableEq, Repr

namespace Request

/-- What is asked for when the reading of arguments ends. -/
def ofHalt (command : Option Command) : Except Halt Request → Request
  | .ok request => request
  | .error .help => .help
  | .error .version => .version command
  | .error (.misuse e) => .misuse e

/-- A request to assemble. -/
def ofAssemble (arguments : List String) : Except Halt Request := do
  let g ← Given.readAll Flag.ofAssemble none {} arguments
  let cpu ← g.cpu
  if g.operands.isEmpty then throw (.misuse .missingOperand)
  return .assemble {
    files := g.operands
    options := { cpu, branchExtend := !g.has .noBranchExtend }
    output := g.value? .output
    warnings := !g.has .noWarnings
    quiet := g.has .quiet }

/-- Where a binary is loaded unless told otherwise. -/
def defaultOrigin : Nat := 0x8000

/-- A request to disassemble. -/
def ofDisassemble (arguments : List String) : Except Halt Request := do
  let g ← Given.readAll Flag.ofDisassemble (some 1) {} arguments
  let cpu ← g.cpu
  match g.operands with
  | [] => throw (.misuse .missingOperand)
  | file :: _ =>
    let origin := ((g.value? .origin).bind address?).getD defaultOrigin
    return .disassemble { file, origin, cpu }

/-- A request for help on at most one command. -/
def ofHelp : List String → Request
  | [] => .help
  | [name] => if (Command.ofName? name).isSome then .help else .misuse (.unknownCommand name)
  | _ :: name :: _ => .misuse (.unknownCommand name)

/-- Reads the arguments behind the options of the program. -/
def ofArgumentsFrom (g : Given) : List String → Request
  | [] => .misuse .missingCommand
  | argument :: rest =>
    match Command.ofName? argument with
    | some .assemble => ofHalt (some .assemble) (ofAssemble rest)
    | some .disassemble => ofHalt (some .disassemble) (ofDisassemble rest)
    | some .help => ofHelp rest
    | none =>
      match g.readArgument Flag.ofProgram (some 0) argument with
      | .error halt => ofHalt none (.error halt)
      | .ok g =>
        if g.operandsOnly then .misuse .missingCommand
        else ofArgumentsFrom g rest

/-- Reads the arguments of the program. -/
def ofArguments (arguments : List String) : Request :=
  ofArgumentsFrom {} arguments

end Request
end CommandLine
end Assembler6502
