import Assembler6502.Environment
import Assembler6502.FileSystem
import Assembler6502.Item
import Assembler6502.Token.Scanner

/-!
# Faults and warnings

Everything that can be wrong with a program, by the activity that finds it, and what is merely
worth a word. A fault is a cause; its wording is in one place, its `message`.

## Main definitions

* `ParseError`, `MacroError`, `PassError`, `EmissionError`: the faults of the single activities
* `Fault`: any fault of a program
* `Warning`: what does not stop the assembly
-/

namespace Assembler6502

/-- What can be wrong with a source text and the files that it names. -/
inductive ParseError where
  | lexical (error : LexError)
  | evaluation (error : EvalError)
  | expected (what found : String)
  | expectedExpression (found : String)
  | unknownOpcode (name : String)
  | unknownDirective (name : String)
  | invalidNumber (kind literal : String)
  | identifierStartsWithDigit (literal : String)
  | invalidCharacter (literal : String)
  | notConstant (expression : String)
  | unreadable (path : String) (error : FileError)
  | charmapOutOfRange
  | illegalCharmapValue
  | charmapSize (path : String)
  | negativeOffset
  | offsetPastEnd
  | negativeLength
  | lengthTooLong
  | recursiveInclude (path : String)
  deriving DecidableEq, Repr

def ParseError.message : ParseError → String
  | lexical error => error.message
  | evaluation error => error.message
  | expected what found => "Expected: " ++ what ++ ", found '" ++ found ++ "'"
  | expectedExpression found => "Expected: expression, found '" ++ found ++ "'"
  | unknownOpcode name => "Unknown opcode '" ++ name ++ "'"
  | unknownDirective name => "Unknown pragma " ++ name
  | invalidNumber kind literal => "Invalid " ++ kind ++ " constant: " ++ literal
  | identifierStartsWithDigit literal => "Identifiers may not begin with a number: " ++ literal
  | invalidCharacter literal => "Invalid character constant '" ++ literal ++ "'"
  | notConstant expression => "Expression must be constant: " ++ expression
  | unreadable path error => "Could not read " ++ path ++ ": " ++ error.message
  | charmapOutOfRange => "Charmap replacement out of range"
  | illegalCharmapValue => "Illegal character in .charmap directive"
  | charmapSize path => "Character map " ++ path ++ " not 256 bytes long"
  | negativeOffset => "Offset may not be negative"
  | offsetPastEnd => "Offset runs past end of file"
  | negativeLength => "Length may not be negative"
  | lengthTooLong => ".incbin length too long"
  | recursiveInclude path => path ++ " includes itself"

/-- What can be wrong with macros. -/
inductive MacroError where
  | undefined (name : String)
  | duplicate (name : String)
  | nestedDefinition
  | notDefining
  | unmatchedBegin
  | unmatchedEnd
  deriving DecidableEq, Repr

def MacroError.message : MacroError → String
  | undefined name => "Undefined macro '" ++ name ++ "'"
  | duplicate name => "Duplicate macro definition '" ++ name ++ "'"
  | nestedDefinition => "Nested macro definition"
  | notDefining => "No macro definition in progress"
  | unmatchedBegin => "Unmatched .macro"
  | unmatchedEnd => "Unmatched .macend"

/-- What can be wrong with the passes over a program. -/
inductive PassError where
  | unhandledItem (pass item : String)
  | noConvergence (stage : String)
  /-- A branch that would be rewritten for ever. -/
  | endlessExtension (branch : Mnemonic)
  deriving DecidableEq, Repr

def PassError.message : PassError → String
  | unhandledItem pass item => "Internal error: " ++ pass ++ " cannot handle node '" ++ item ++ "'"
  | noConvergence stage =>
    "Can't make " ++ stage ++ " converge! Maybe there's a recursive dependency somewhere?"
  | endlessExtension branch => "Extension of " ++ branch.text ++ " does not end"

/-- What can be wrong when a program is turned into bytes. -/
inductive EmissionError where
  | noSuchMode (mnemonic : Mnemonic) (mode : Mode)
  | unresolvedMode (mnemonic : Mnemonic)
  | branchOutOfRange
  | valueOutOfRange (width : Width) (expression : String)
  | writeToDataSegment
  | checkPcFailed (pc target : Value)
  | advanceBackwards (pc target : Value)
  | advancePastEnd (target : Value)
  | negativeOffset
  | offsetPastEnd
  | negativeLength
  | fileTooSmall
  deriving DecidableEq, Repr

def EmissionError.message : EmissionError → String
  | noSuchMode mnemonic mode =>
    mnemonic.text ++ " does not have mode \"" ++ mode.text ++ "\""
  | unresolvedMode mnemonic =>
    "Internal error: addressing mode of " ++ mnemonic.text ++ " was never resolved"
  | branchOutOfRange => "Branch target out of bounds"
  | valueOutOfRange width expression =>
    width.text ++ " constant " ++ expression ++ " out of range"
  | writeToDataSegment => "Attempt to write to data segment"
  | checkPcFailed pc target =>
    ".checkpc assertion failed: $" ++ pc.hexLower ++ " > $" ++ target.hexLower
  | advanceBackwards pc target =>
    "Attempted to .advance backwards: $" ++ pc.hexLower ++ " to $" ++ target.hexLower
  | advancePastEnd target =>
    "Attempted to .advance past the end of memory: $" ++ target.hexLower
  | negativeOffset => "Negative offset in .incbin"
  | offsetPastEnd => "Offset extends past end of file"
  | negativeLength => "Negative length"
  | fileTooSmall => "File too small for .incbin subrange"

/-- Any fault of a program. -/
inductive Fault where
  | parse (error : ParseError)
  | evaluation (error : EvalError)
  | symbol (error : SymbolError)
  | expansion (error : MacroError)
  | pass (error : PassError)
  | emission (error : EmissionError)
  deriving DecidableEq, Repr

def Fault.message : Fault → String
  | parse error => error.message
  | evaluation error => error.message
  | symbol error => error.message
  | expansion error => error.message
  | pass error => error.message
  | emission error => error.message

/-- What is worth a word but does not stop the assembly. -/
inductive Warning where
  | registerNameAsLabel (name : String)
  | opcodeNameAsLabel (name : String)
  | branchReplacedWithJump (branch : Mnemonic)
  | branchExtended (branch inverse : Mnemonic)
  deriving DecidableEq, Repr

def Warning.message : Warning → String
  | registerNameAsLabel name => "Using register name as label: '" ++ name ++ "'"
  | opcodeNameAsLabel name => "Using opcode name as label: '" ++ name ++ "'"
  | branchReplacedWithJump branch => branch.text ++ " out of range, replacing with JMP"
  | branchExtended branch inverse =>
    branch.text ++ " out of range, replacing with " ++ inverse.text ++ "/JMP combination"

end Assembler6502
