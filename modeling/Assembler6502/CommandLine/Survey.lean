import Assembler6502.CommandLine.Arguments

/-!
# Surveys

A survey is what is known of the files of a system: those paths that have been looked up, and
perhaps standard input. It serves as a file system in which every other path is unseen. Reading the
sources of a request tells which path to look up next, if any.

## Main definitions

* `Finding`: what looking a path up has found
* `Survey`: all findings
* `Survey.toFileSystem`: the findings as a file system
* `Survey.unseen?`: the path that a request still asks for
-/

namespace Assembler6502
namespace CommandLine

/-- What looking a path up has found. -/
inductive Finding where
  /-- A file, its canonical path and its contents. -/
  | file (canonical : String) (bytes : List UInt8)
  /-- Nothing that can be read. It may still have a canonical path. -/
  | unreadable (canonical : Option String) (error : FileError)

def Finding.canonical? : Finding → Option String
  | file canonical _ => some canonical
  | unreadable canonical _ => canonical

/-- What is known of the files of a system. -/
structure Survey where
  findings : List (String × Finding) := []
  stdin : Except FileError (List UInt8) := .error .unseen

namespace Survey

def find? (s : Survey) (path : String) : Option Finding :=
  s.findings.lookup path

/-- The canonical path of what a path leads to, as far as it is known. -/
def canonical? (s : Survey) (path : String) : Option String :=
  (s.find? path).bind Finding.canonical?

/-- The contents of the file that a path leads to, as far as they are known. -/
def read (s : Survey) (path : String) : Except FileError (List UInt8) :=
  match s.find? path with
  | none => .error .unseen
  | some (.file _ bytes) => .ok bytes
  | some (.unreadable _ e) => .error e

theorem mem_findings_of_find? {s : Survey} {path : String} {f : Finding}
    (h : s.find? path = some f) : (path, f) ∈ s.findings := by
  unfold find? at h
  generalize s.findings = findings at h ⊢
  induction findings with
  | nil => cases h
  | cons entry rest ih =>
    obtain ⟨key, value⟩ := entry
    rw [List.lookup_cons] at h
    split at h
    · simp_all
    · exact List.mem_cons_of_mem _ (ih h)

/-- The findings as a file system. -/
def toFileSystem (s : Survey) : FileSystem where
  canonical? := s.canonical?
  read := s.read
  files := s.findings.filterMap (·.2.canonical?)
  canonical_mem path bytes h := by
    unfold read at h
    split at h
    · cases h
    · rename_i canonical contents hf
      refine ⟨canonical, List.mem_filterMap.2 ⟨_, mem_findings_of_find? hf, rfl⟩, ?_⟩
      simp [canonical?, hf, Finding.canonical?]
    · cases h

/-- The path that an unsuccessful reading of a path asks for. -/
def unseenFault? : Fault → Option String
  | .parse (.unreadable path .unseen) => some path
  | _ => none

/-- The first path that a request asks for and that has not been looked up. -/
def unseen? (s : Survey) : Request → Option String
  | .assemble request =>
    let read :=
      Source.read request.options.cpu s.toFileSystem s.stdin (request.files.map .file)
    read.diagnostics.errors.findSome? fun e => unseenFault? e.value
  | .disassemble request =>
    match s.read request.file with
    | .error .unseen => some request.file
    | _ => none
  | .help | .version _ | .misuse _ => none

end Survey
end CommandLine
end Assembler6502
