import Assembler6502.CommandLine.Arguments
import Assembler6502.Disassembly
import Assembler6502.FileTree
import Assembler6502.LogLevel

/-!
# Carrying out commands

What a command does depends on the files that it reads and, where it writes a file, on whether that
succeeds. A plan says what is still to be done, so that it can be carried out on the files of the
system and on a directory tree alike.

## Main definitions

* `Report`: what the program leaves on its standard streams, and its exit status
* `Plan`: a report, or a file to write before it
* `Plan.ofArguments`: what the arguments ask for
* `Plan.run`: carries a plan out on a directory tree
-/

namespace Assembler6502
namespace CommandLine

/-- What the program leaves when it ends. -/
structure Report where
  status : Nat := 0
  stdout : List UInt8 := []
  stderr : String := ""
  deriving DecidableEq, Repr

namespace Report

/-- The status of a command that failed. -/
def failure : Nat := 1

/-- The status of a command that was not understood. -/
def usage : Nat := 2

/-- Text on standard output. -/
def print (text : String) : Report :=
  { stdout := text.toUTF8.toList }

/-- Failure, behind what was already said. -/
def fail (said message : String) : Report :=
  { status := failure, stderr := said ++ "Error: " ++ message ++ "\n" }

/-- Failure with a cause, behind what was already said. -/
def failBecause (said message cause : String) : Report :=
  fail said (message ++ "\n\nCaused by:\n    " ++ cause)

end Report

/-- What is still to be done: a file to write, if any, and the report on that. -/
inductive Plan where
  | finish (report : Report)
  | write (path : String) (bytes : List UInt8) (next : Except FileError Unit → Report)

namespace Plan

/-- The name under which the program tells its version. -/
def title : String := "asm65"

def versionNumber : String := "0.1.0"

/-- The line that tells the version. -/
def versionText (command : Option Command) : String :=
  let name :=
    match command with
    | none => title
    | some c => title ++ "-" ++ c.name
  name ++ " " ++ versionNumber ++ "\n"

/-- How the program is used. -/
def helpText : String :=
  "Usage: " ++ title ++ " [OPTIONS] <COMMAND>\n\n" ++
  "Commands:\n" ++
  "  assemble     Assemble a program\n" ++
  "  disassemble  Disassemble a binary file\n" ++
  "  help         Print this message or the help of the given subcommand(s)\n\n" ++
  "Options:\n" ++
  "      --trace       Enable chrome tracing\n" ++
  "  -v, --verbose...  Log more, repeat for more detail\n" ++
  "  -h, --help        Print help (see more with '--help')\n" ++
  "  -V, --version     Print version\n"

/-- The output file where neither the arguments nor the sources name one. -/
def defaultOutput : String := "a.bin"

/-- Whether an output path stands for standard output. -/
def isStandardOutput (path : String) : Bool :=
  Path.normalized path == Path.normalized Reading.standardInput

/-- The output file: the arguments come before the sources. -/
def outputPath (request : AssembleRequest) (outfile : Option String) : String :=
  (request.output <|> outfile).getD defaultOutput

/-- What is said about output files that came too late. -/
def ignoredText (read : Source.Outcome) : String :=
  String.join (read.ignoredOutfiles.map fun name =>
    LogLevel.warn.line ("Ignoring .outfile " ++ name ++ ", already " ++ read.outfile.getD ""))

/-- What is said about a program, warnings first. -/
def diagnosticsText (warnings : Bool) (d : Diagnostics) : String :=
  let warningLines := d.warnings.map fun w =>
    "Warning: " ++ w.location.text ++ ": " ++ w.value.message ++ "\n"
  let errorLines := d.errors.map fun e => e.location.text ++ ": " ++ e.value.message ++ "\n"
  (if warnings then String.join warningLines else "") ++ String.join errorLines

/-- Assembles files. -/
def ofAssemble (fs : FileSystem) (stdin : Except FileError (List UInt8))
    (request : AssembleRequest) : Plan :=
  let read := Source.read request.options.cpu fs stdin (request.files.map .file)
  let assembly := Assembly.ofProgram request.options read.program read.diagnostics
  let said := ignoredText read ++ diagnosticsText request.warnings assembly.diagnostics
  if assembly.diagnostics.hasErrors then
    .finish (.fail said assembly.diagnostics.report)
  else
    let path := outputPath request read.outfile
    let bytes := assembly.image.bytes.toList
    let complete := "Assembly complete: " ++ assembly.image.stats.text ++ "\n"
    if isStandardOutput path then
      .finish { stdout := bytes, stderr := said ++ if request.quiet then "" else complete }
    else
      .write path bytes fun
        | .error e => .failBecause said ("Unable to write " ++ path) e.message
        | .ok () =>
          let wrote := complete ++ "Wrote " ++ path ++ "\n"
          { stderr := said ++ if request.quiet then "" else wrote }

/-- Disassembles a file. -/
def ofDisassemble (fs : FileSystem) (request : DisassembleRequest) : Plan :=
  match fs.read request.file with
  | .error e => .finish (.failBecause "" ("Unable to read " ++ request.file) e.message)
  | .ok bytes =>
    let lines := Disassembly.ofBytes request.cpu request.origin bytes
    .finish (.print (Disassembly.listing lines ++ "\n"))

/-- What a request asks for. -/
def ofRequest (fs : FileSystem) (stdin : Except FileError (List UInt8)) : Request → Plan
  | .assemble request => ofAssemble fs stdin request
  | .disassemble request => ofDisassemble fs request
  | .help => .finish (.print helpText)
  | .version command => .finish (.print (versionText command))
  | .misuse e => .finish { status := Report.usage, stderr := "error: " ++ e.message ++ "\n" }

/-- What the arguments ask for. -/
def ofArguments (fs : FileSystem) (stdin : Except FileError (List UInt8))
    (arguments : List String) : Plan :=
  ofRequest fs stdin (Request.ofArguments arguments)

/-- Carries a plan out on a directory tree. -/
def run (t : FileTree) : Plan → Report × FileTree
  | .finish report => (report, t)
  | .write path bytes next =>
    match t.write path bytes with
    | .error e => (next (.error e), t)
    | .ok t => (next (.ok ()), t)

end Plan
end CommandLine
end Assembler6502
