/-!
# Paths

Paths as they are written in sources and on the command line. Joining and taking the parent work on
the written form, because messages and locations show it, and nothing is looked up.

## Main definitions

* `Path.components`: the names that a path consists of
* `Path.join`, `Path.parent`: a path below a directory, and the directory that holds a path
* `Path.normalized`: a path up to repeated separators and idle dots
-/

namespace Assembler6502
namespace Path

/-- The parts of a text between separators; there is one more than there are separators. -/
def splitParts : List Char → List (List Char)
  | [] => [[]]
  | c :: rest =>
    if c = '/' then [] :: splitParts rest
    else
      match splitParts rest with
      | [] => [[c]]
      | part :: parts => (c :: part) :: parts

/-- The parts of a path between separators, which may be empty or dots. -/
def components (path : String) : List String :=
  (splitParts path.toList).map String.ofList

/-- Whether a path starts at the root. -/
def isAbsolute (path : String) : Bool :=
  path.toList.head? == some '/'

/-- A part that leads nowhere. -/
def isIdle (part : String) : Bool :=
  part == "" || part == "."

/-- The path of a file named in a directory. An absolute name stands for itself, and an empty
directory is the current one. -/
def join (directory name : String) : String :=
  if isAbsolute name || directory.isEmpty then name
  else if directory.toList.getLast? == some '/' then directory ++ name
  else directory ++ "/" ++ name

/-- What a path starts with before its first name: the root, a leading dot, or nothing; and the
parts behind that. A leading dot is kept because it is how the path is written. -/
def splitLead (path : String) : String × List String :=
  match components path with
  | "" :: rest => if isAbsolute path then ("/", rest) else ("", [""])
  | "." :: rest => (".", "" :: rest)
  | parts => ("", parts)

/-- Drops idle parts from the end. -/
def trimEnd (parts : List String) : List String :=
  (parts.reverse.dropWhile isIdle).reverse

/-- The directory that holds a path: the path without its last name. -/
def parent (path : String) : String :=
  let (lead, parts) := splitLead path
  match (trimEnd parts).reverse with
  | [] => ""
  | _ :: before => lead ++ "/".intercalate (trimEnd before.reverse)

/-- The parts of a path that matter: idle ones are left out, except for a leading dot. -/
def normalized (path : String) : List String :=
  let (lead, parts) := splitLead path
  lead :: parts.filter fun part => !isIdle part

end Path
end Assembler6502
