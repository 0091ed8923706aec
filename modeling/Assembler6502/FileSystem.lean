import Assembler6502.Path

/-!
# File systems

What the assembler asks of a file system: the contents of the file at a path, and whether two paths
lead to the same file. The identity of a file is its canonical path; a path that leads nowhere is
its own identity. A file system holds finitely many files, which it can list.

## Main definitions

* `FileError`: why a file cannot be read or written
* `FileSystem`: contents and identities by path
* `FileKey`: the identity of whatever a path leads to
-/

namespace Assembler6502

/-- Why a file cannot be read or written. -/
inductive FileError where
  | notFound
  | notDirectory
  | isDirectory
  | nameTooLong
  | nulByte
  | invalidUtf8
  /-- The system refused for a reason of its own. -/
  | other (reason : String)
  /-- The path has not been looked up. -/
  | unseen
  deriving DecidableEq, Repr

def FileError.message : FileError → String
  | notFound => "No such file or directory (os error 2)"
  | notDirectory => "Not a directory (os error 20)"
  | isDirectory => "Is a directory (os error 21)"
  | nameTooLong => "File name too long (os error 36)"
  | nulByte => "file name contained an unexpected NUL byte"
  | invalidUtf8 => "stream did not contain valid UTF-8"
  | other reason => reason
  | unseen => "not looked up"

/-- Contents and identities by path. -/
structure FileSystem where
  /-- The canonical path of what a path leads to. -/
  canonical? : String → Option String
  /-- The contents of the file that a path leads to. -/
  read : String → Except FileError (List UInt8)
  /-- The canonical paths of all files. -/
  files : List String
  /-- Whatever can be read is one of the files. -/
  canonical_mem : ∀ path bytes, read path = .ok bytes → ∃ c ∈ files, canonical? path = some c

/-- The file system without files. -/
def FileSystem.empty : FileSystem where
  canonical? _ := none
  read _ := .error .notFound
  files := []
  canonical_mem _ _ h := nomatch h

instance : Inhabited FileSystem := ⟨FileSystem.empty⟩

/-- The identity of what a path leads to, or of the path itself if it leads nowhere. -/
inductive FileKey where
  | canonical (path : String)
  | written (parts : List String)
  deriving DecidableEq, Repr

/-- The identity of what a path leads to. -/
def FileSystem.key (fs : FileSystem) (path : String) : FileKey :=
  match fs.canonical? path with
  | some c => .canonical c
  | none => .written (Path.normalized path)

/-- The text that some bytes encode. -/
def FileSystem.decode (bytes : List UInt8) : Except FileError (List Char) :=
  match String.fromUTF8? ⟨bytes.toArray⟩ with
  | some text => .ok text.toList
  | none => .error .invalidUtf8

end Assembler6502
