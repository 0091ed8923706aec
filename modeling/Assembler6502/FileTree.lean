import Assembler6502.FileSystem

/-!
# Directory trees

A file system given by its files: a directory exists if a file lies below it. Paths are followed
name by name from the current directory, the top of the tree, or from the root, which lies some
levels above it. Of the directories above the top nothing else is known, but that the root holds the
null device. A path may lead anywhere, however long it is, but only a path of limited size can be
opened.

## Main definitions

* `FileTree`: files by the names on the way to them
* `FileTree.resolve`: where a path leads
* `FileTree.locate`: where a path leads when it is opened
* `FileTree.toFileSystem`: the tree as a file system
* `FileTree.create`, `FileTree.write`: the file that is made when a path is written
-/

namespace Assembler6502

/-- A place that a path leads to. -/
inductive Place where
  /-- A file or directory of the tree, by the names on the way to it. -/
  | inside (names : List String)
  /-- A directory so many levels above the top. -/
  | above (levels : Nat)
  /-- The directory of devices, below the root. -/
  | devices
  /-- The device that is always empty and keeps nothing. -/
  | nullDevice
  deriving DecidableEq, Repr

/-- Files by the names on the way to them. -/
structure FileTree where
  files : List (List String × List UInt8) := []
  /-- How many directories lie between the root and the top. -/
  between : Nat := 1

namespace FileTree

/-- The longest name that a file can have, in bytes. -/
def maxNameSize : Nat := 255

/-- The longest path that can be opened, in bytes. -/
def maxPathSize : Nat := 4095

/-- How many levels the root lies above the top. -/
def height (t : FileTree) : Nat :=
  t.between + 1

/-- The contents of the file at some names. -/
def contents? (t : FileTree) (names : List String) : Option (List UInt8) :=
  (t.files.find? fun f => f.1 == names).map (·.2)

/-- Whether some names lead to a directory. -/
def isDirectory (t : FileTree) (names : List String) : Bool :=
  names.isEmpty || t.files.any fun f => names.length < f.1.length && names.isPrefixOf f.1

/-- Whether a place is a directory. -/
def isDirectoryAt (t : FileTree) : Place → Bool
  | .inside names => t.isDirectory names
  | .above _ => true
  | .devices => true
  | .nullDevice => false

/-- The directory that a place lies in. The root lies in itself. -/
def parent (t : FileTree) : Place → Place
  | .inside [] => .above 1
  | .inside names => .inside names.dropLast
  | .above levels => .above (min (levels + 1) t.height)
  | .devices => .above t.height
  | .nullDevice => .devices

/-- Follows one part of a path from a place. -/
def step (t : FileTree) (place : Place) (part : String) : Except FileError Place :=
  if !t.isDirectoryAt place then .error .notDirectory
  else if Path.isIdle part then .ok place
  else if part == ".." then .ok (t.parent place)
  else if maxNameSize < part.utf8ByteSize then .error .nameTooLong
  else
    match place with
    | .inside names =>
      let names := names ++ [part]
      if (t.contents? names).isSome || t.isDirectory names then .ok (.inside names)
      else .error .notFound
    | .above levels => if levels = t.height ∧ part = "dev" then .ok .devices else .error .notFound
    | .devices => if part = "null" then .ok .nullDevice else .error .notFound
    | .nullDevice => .error .notFound

/-- Follows the parts of a path from a place. -/
def follow (t : FileTree) (place : Place) : List String → Except FileError Place
  | [] => .ok place
  | part :: rest => do
    let place ← t.step place part
    t.follow place rest

/-- Where a path starts, unless it cannot lead anywhere. -/
def start (t : FileTree) (path : String) : Except FileError Place :=
  if path.isEmpty then .error .notFound
  else if path.toList.contains (Char.ofNat 0) then .error .nulByte
  else if Path.isAbsolute path then .ok (.above t.height)
  else .ok (.inside [])

/-- Where a path leads. -/
def resolve (t : FileTree) (path : String) : Except FileError Place := do
  let place ← t.start path
  t.follow place (Path.components path)

/-- Where a path starts when it is opened, unless it is too long. -/
def startOpening (t : FileTree) (path : String) : Except FileError Place := do
  let place ← t.start path
  if maxPathSize < path.utf8ByteSize then throw .nameTooLong
  return place

/-- Where a path leads when it is opened. -/
def locate (t : FileTree) (path : String) : Except FileError Place := do
  let place ← t.startOpening path
  t.follow place (Path.components path)

/-- A path that can be opened leads to the same place when it is not. -/
theorem resolve_of_locate {t : FileTree} {path : String} {place : Place}
    (h : t.locate path = .ok place) : t.resolve path = .ok place := by
  unfold locate startOpening at h
  unfold resolve
  cases hs : t.start path with
  | error e => simp [hs, bind, Except.bind] at h
  | ok first =>
    by_cases hl : maxPathSize < path.utf8ByteSize
    · simp [hs, hl, bind, Except.bind, throw, throwThe, MonadExceptOf.throw] at h
    · simpa [hs, hl, bind, Except.bind, pure, Except.pure] using h

/-- The canonical path of a place. -/
def canonicalText : Place → String
  | .inside names => "./" ++ "/".intercalate names
  | .above levels => "/".intercalate (List.replicate levels "..")
  | .devices => "/dev"
  | .nullDevice => "/dev/null"

/-- The canonical path of what a path leads to. -/
def canonical? (t : FileTree) (path : String) : Option String :=
  match t.resolve path with
  | .ok place => some (canonicalText place)
  | .error _ => none

/-- The contents of the file that a path leads to. -/
def read (t : FileTree) (path : String) : Except FileError (List UInt8) :=
  match t.locate path with
  | .error e => .error e
  | .ok (.inside names) =>
    match t.contents? names with
    | some bytes => .ok bytes
    | none => .error .isDirectory
  | .ok .nullDevice => .ok []
  | .ok _ => .error .isDirectory

theorem mem_of_contents? {t : FileTree} {names : List String} {bytes : List UInt8}
    (h : t.contents? names = some bytes) : ∃ f ∈ t.files, f.1 = names := by
  obtain ⟨f, hf, -⟩ := Option.map_eq_some_iff.1 h
  exact ⟨f, List.mem_of_find?_eq_some hf, by simpa using List.find?_some hf⟩

/-- The tree as a file system. -/
def toFileSystem (t : FileTree) : FileSystem where
  canonical? := t.canonical?
  read := t.read
  files := canonicalText .nullDevice :: t.files.map fun f => canonicalText (.inside f.1)
  canonical_mem path bytes h := by
    unfold read at h
    split at h
    · cases h
    · rename_i names hr
      split at h
      · rename_i contents hc
        obtain ⟨f, hf, hn⟩ := mem_of_contents? hc
        refine ⟨canonicalText (.inside names), ?_, by simp [canonical?, resolve_of_locate hr]⟩
        exact List.mem_cons_of_mem _ (List.mem_map.2 ⟨f, hf, by rw [hn]⟩)
      · cases h
    · rename_i hr
      exact ⟨canonicalText .nullDevice, List.mem_cons_self, by
        simp [canonical?, resolve_of_locate hr]⟩
    · cases h

/-- The names of the file that is made, or made anew, when a path is written. Outside of the tree
nothing is kept. -/
def create (t : FileTree) (path : String) : Except FileError (Option (List String)) := do
  let place ← t.startOpening path
  let parts := Path.components path
  let named := (parts.reverse.dropWhile (· == "")).reverse
  let last := named.getLastD ""
  let directory ← t.follow place named.dropLast
  if !t.isDirectoryAt directory then throw .notDirectory
  if parts.length != named.length || Path.isIdle last || last == ".." then throw .isDirectory
  if maxNameSize < last.utf8ByteSize then throw .nameTooLong
  if (t.step directory last).toOption.any t.isDirectoryAt then throw .isDirectory
  match directory with
  | .inside names => return some (names ++ [last])
  | _ => return none

/-- Writes a file. What was there before is lost. -/
def write (t : FileTree) (path : String) (bytes : List UInt8) : Except FileError FileTree := do
  match ← t.create path with
  | some names => return { t with files := (names, bytes) :: t.files.filter (·.1 != names) }
  | none => return t

/-- The files that are new in a tree, or have new contents. -/
def changesSince (t before : FileTree) : List (List String × List UInt8) :=
  t.files.filter fun f => before.contents? f.1 != some f.2

end FileTree
end Assembler6502
