import Assembler6502.CommandLine.Plan
import Assembler6502.CommandLine.Survey

/-!
# The program

The command line looks up the files that it needs and then carries its plan out. It finds out what
is needed by reading the sources: as long as they ask for a path that has not been looked up, the
path is looked up and the sources are read again.
-/

open Assembler6502 Assembler6502.CommandLine

/-- The number of a system error. Some calls of the system negate it. -/
def errorNumber (code : UInt32) : Nat :=
  min code.toNat (0 - code).toNat

/-- Why the system refused. -/
def fileErrorOf : IO.Error → FileError
  | .noFileOrDirectory .. => .notFound
  | .permissionDenied .. => .other "Permission denied (os error 13)"
  | e@(.inappropriateType _ code _) =>
    match errorNumber code with
    | 20 => .notDirectory
    | 21 => .isDirectory
    | _ => .other (toString e)
  | e => .other (toString e)

/-- Looks a path up. -/
def lookUp (path : String) : IO Finding := do
  let canonical ← try some <$> IO.FS.realPath path catch _ => pure none
  let canonical := canonical.map toString
  try
    let bytes ← IO.FS.readBinFile path
    return .file (canonical.getD path) bytes.toList
  catch e => return .unreadable canonical (fileErrorOf e)

/-- Looks up all that a request needs. -/
partial def surveyFor (request : Request) (s : Survey) : IO Survey := do
  match s.unseen? request with
  | none => return s
  | some path =>
    if path == Reading.standardInput then
      let bytes ← (← IO.getStdin).readBinToEnd
      surveyFor request { s with stdin := .ok bytes.toList }
    else
      let finding ← lookUp path
      surveyFor request { s with findings := (path, finding) :: s.findings }

/-- Leaves a report on the standard streams. -/
def leave (report : Report) : IO UInt32 := do
  let stdout ← IO.getStdout
  stdout.write ⟨report.stdout.toArray⟩
  stdout.flush
  (← IO.getStderr).putStr report.stderr
  return UInt32.ofNat report.status

def main (arguments : List String) : IO UInt32 := do
  let request := Request.ofArguments arguments
  let survey ← surveyFor request {}
  match Plan.ofRequest survey.toFileSystem survey.stdin request with
  | .finish report => leave report
  | .write path bytes next =>
    let written ←
      try
        IO.FS.writeBinFile path ⟨bytes.toArray⟩
        pure (Except.ok ())
      catch e => pure (Except.error (fileErrorOf e))
    leave (next written)
