import Assembler6502.Arena
import Assembler6502.Diagnostics
import Assembler6502.MacroTable
import Assembler6502.Source.Parser

/-!
# Reading the sources

Reading turns source texts into a program. It goes on over faults: a faulty line is reported, adds
nothing to the program, and leaves the lines after it as they are. Included files are read where
they are named. A file that is being read cannot be included again before its end, so inclusion
ends for every file system.

## Main definitions

* `Reading`: the program so far, and what later lines depend on
* `Reading.perform`: what a phrase does
* `Reading.parseStep`, `Reading.readText`: read a line, and a text line by line
* `Reading.loadInside`, `Reading.load`: reads a file
* `Source.read`: the program that some sources make
-/

namespace Assembler6502

/-- The state of reading the sources of a program. -/
structure Reading where
  cpu : Cpu
  /-- The nodes made so far. The root is the first. -/
  arena : Arena := {}
  diagnostics : Diagnostics := {}
  /-- The number of anonymous labels met so far. -/
  anonymousLabels : Nat := 0
  charmap : Charmap := .identity
  /-- The files read so far. -/
  loaded : List FileKey := []
  /-- The files being read, the innermost first. -/
  including : List FileKey := []
  /-- The output file that the sources name. -/
  outfile : Option String := none
  /-- Output files that were named when there already was one. -/
  ignoredOutfiles : List String := []
  /-- What is left to read from standard input. -/
  input : Except FileError (List UInt8) := .ok []

namespace Reading

/-- The number of nodes made so far. -/
def size (r : Reading) : Nat :=
  r.arena.size

def error (r : Reading) (location : Location) (error : ParseError) : Reading :=
  { r with diagnostics := r.diagnostics.error location (.parse error) }

/-- Makes a node for each item, all at one location. -/
def make (r : Reading) (location : Location) (items : List Item) : Reading × List Node :=
  let (nodes, _) := Node.ofFragments r.size (items.map (.ofItem location))
  ({ r with arena := r.arena.enterAll nodes }, nodes)

/-- Makes a sequence of nodes that have been made. -/
def gather (r : Reading) (location : Location) (nodes : List Node) : Reading × Node :=
  ({ r with arena := r.arena.push (.sequence location (nodes.map Node.number)) },
    .sequence r.size location nodes)

/-- The value of an expression that may not depend on labels or the program counter. -/
def constantValue (e : Expr) : Except ParseError Value :=
  if e.isHardcoded then
    match e.evaluate ({} : Environment).valuation with
    | .ok v => .ok v
    | .error err => .error (.evaluation err)
  else .error (.notConstant e.text)

/-- The part of a file between constant bounds; without a length it goes to the end. -/
def slice (bytes : List UInt8) (offset : Expr) (length : Option Expr) :
    Except ParseError (List UInt8) := do
  let offset ← constantValue offset
  if offset < 0 then throw .negativeOffset
  let start := offset.toInt.toNat
  if bytes.length < start then throw .offsetPastEnd
  match length with
  | none => return bytes.drop start
  | some length =>
    let length ← constantValue length
    if length < 0 then throw .negativeLength
    let count := length.toInt.toNat
    if bytes.length < start + count then throw .lengthTooLong
    return (bytes.drop start).take count

/-- The contents of a file as an item: plain data if the bounds are constant, and otherwise a range
that waits for the values of labels. -/
def binaryItem (bytes : List UInt8) (offset : Expr) (length : Option Expr) :
    Except ParseError Item :=
  if offset.isHardcoded && length.all Expr.isHardcoded then do
    let part ← slice bytes offset length
    return .data .byte .little (part.map fun b => .constant (Int64.ofNat b.toNat))
  else
    let rest := Expr.chained (.constant (Int64.ofNat bytes.length)) [(.subtract, offset)]
    .ok (.byteRange offset (length.getD rest) bytes)

/-- How a file is included: from which location and directory, by which name, and whether it is to
be read once only. The result is the node of its contents, if it was read. -/
abbrev Loader := Location → String → String → Bool → Reading → Reading × Option Node

/-- What a phrase does. A fault leaves everything as it was. -/
def perform (fs : FileSystem) (load : Loader) (directory : String) (location : Location)
    (r : Reading) : Source.Phrase → Except ParseError (Reading × List Node)
  | .nothing => .ok (r, [])
  | .item item => .ok (r.make location [item])
  | .reserve symbol size => .ok (r.make location [.mark symbol, .setPc (.pcPlus size)])
  | .outfile name =>
    match r.outfile with
    | none => .ok ({ r with outfile := some name }, [])
    | some _ => .ok ({ r with ignoredOutfiles := r.ignoredOutfiles ++ [name] }, [])
  | .include name once =>
    let (r, node) := load location directory name once r
    .ok (r, node.toList)
  | .incbin name offset length =>
    let path := Path.join directory name
    match fs.read path with
    | .error e => .error (.unreadable path e)
    | .ok bytes => do
      let item ← binaryItem bytes offset length
      return r.make location [item]
  | .charmapReset => .ok ({ r with charmap := .identity }, [])
  | .charmapEntries values => do
    let values ← values.mapM constantValue
    match values with
    | [] => throw .charmapOutOfRange
    | base :: entries =>
      let charmap ← r.charmap.replace? base entries
      return ({ r with charmap }, [])
  | .charmapFile name =>
    let path := Path.join directory name
    match fs.read path with
    | .error e => .error (.unreadable path e)
    | .ok bytes =>
      match Charmap.ofBytes? bytes with
      | none => .error (.charmapSize path)
      | some charmap => .ok ({ r with charmap }, [])

/-- The place of a position in a file. -/
def locate (file : String) (p : Position) : Location :=
  .source file p.line p.column

/-- Reports the faults inside tokens. -/
def reportFaults (file : String) (r : Reading) (faults : List (Position × LexError)) : Reading :=
  faults.foldl (fun r (p, e) => r.error (locate file p) (.lexical e)) r

/-- Reads a line that starts at a location: takes its labels, then its phrase, and does what the
phrase says. That may fail when the end of the line has been taken already. -/
def parseLine (fs : FileSystem) (load : Loader) (directory : String) (location : Location)
    (r : Reading) (p : Parser) : Reading × Except ParseError (List Node) × Parser :=
  let ((labels, count), p) := p.takeLabels r.anonymousLabels p.room
  let (r, labels) := { r with anonymousLabels := count }.make location (labels.map .mark)
  match Parse.phrase ⟨r.cpu, r.charmap, count⟩ p with
  | (.error e, p) => (r, .error e, p)
  | (.ok phrase, p) =>
    match r.perform fs load directory location phrase with
    | .error e => (r, .error e, p)
    | .ok (r, nodes) => (r, .ok (labels ++ nodes), p)

/-- Reads the line at the current token. The nodes of a faulty line stay in the arena, but are put
nowhere; what is left of the line is skipped, unless its end has been taken. -/
def parseStep (fs : FileSystem) (load : Loader) (file directory : String) (r : Reading)
    (p : Parser) : (Reading × List Node) × Parser :=
  let location := locate file p.current.position
  let (r, outcome, p) := r.parseLine fs load directory location { p with lineEnded := false }
  let (r, nodes, p) :=
    match outcome with
    | .ok nodes => (r, nodes, p)
    | .error e => (r.error location e, [], if p.lineEnded then p else p.skipLine)
  ((r.reportFaults file p.faults, nodes), { p with faults := [] })

/-- Reads at most `fuel` lines, up to the end of the text. -/
def parseLines (fs : FileSystem) (load : Loader) (file directory : String) :
    Nat → Reading → Parser → Reading × List Node
  | 0, r, _ => (r, [])
  | fuel + 1, r, p =>
    if p.current.lexeme = .endOfFile then (r.reportFaults file p.faults, [])
    else
      let ((r, nodes), p) := r.parseStep fs load file directory p
      let (r, rest) := parseLines fs load file directory fuel r p
      (r, nodes ++ rest)

/-- Reads a text and makes a sequence of its nodes, at the location where the text is included.
Every line takes a token, so the tokens that there is room for bound the lines, and one more round
sees the end. -/
def readText (fs : FileSystem) (load : Loader) (file directory : String) (location : Location)
    (text : List Char) (r : Reading) : Reading × Node :=
  let p := Parser.ofText text
  let (r, nodes) := parseLines fs load file directory (p.room + 1) r p
  r.gather location nodes

/-- The name that stands for standard input. -/
def standardInput : String := "-"

/-- Reads a file, where the files that it includes are read by `inner`. Standard input can be read
once and is empty after that. -/
def loadInside (fs : FileSystem) (inner : Loader) : Loader := fun location directory name once r =>
  if name = standardInput then
    let input := r.input
    let r := { r with input := .ok [] }
    match input >>= FileSystem.decode with
    | .error e => (r.error location (.unreadable name e), none)
    | .ok text =>
      let (r, node) := r.readText fs inner name "" location text
      (r, some node)
  else
    let path := Path.join directory name
    let key := fs.key path
    if once && r.loaded.contains key then (r, none)
    else if r.including.contains key then (r.error location (.recursiveInclude path), none)
    else
      let r := { r with loaded := key :: r.loaded }
      match fs.read path >>= FileSystem.decode with
      | .error e => (r.error location (.unreadable path e), none)
      | .ok text =>
        let r := { r with including := key :: r.including }
        let (r, node) := r.readText fs inner path (Path.parent path) location text
        ({ r with including := r.including.tail }, some node)

/-- Reads a file with at most `depth` files inside each other. -/
def loadWithin (fs : FileSystem) : Nat → Loader
  | 0 => fun _ _ _ _ r => (r, none)
  | depth + 1 => loadInside fs (loadWithin fs depth)

/-- Reads a file. Files inside each other are all different, standard input has a text once, and
then nothing can be inside, so the depth is enough. -/
def load (fs : FileSystem) : Loader :=
  loadWithin fs (fs.files.length + 2)

end Reading

namespace Source

/-- A source of a program. -/
inductive Input where
  /-- A text in memory, its name, and the directory that its includes are relative to. -/
  | text (name : String) (contents : List Char) (directory : String)
  | file (path : String)

/-- Reads a source and returns the node of its contents. -/
def Input.read (fs : FileSystem) (r : Reading) : Input → Reading × Option Node
  | .text name contents directory =>
    let (r, node) := r.readText fs (Reading.load fs) name directory .topLevel contents
    (r, some node)
  | .file path => Reading.load fs .topLevel "" path false r

/-- Reads sources in order. -/
def readAll (fs : FileSystem) : Reading → List Input → Reading × List Node
  | r, [] => (r, [])
  | r, input :: rest =>
    let (r, node) := input.read fs r
    let (r, nodes) := readAll fs r rest
    (r, node.toList ++ nodes)

/-- What reading the sources gives: the arena of the nodes that were made, and the tree of those
below the root. -/
structure Outcome where
  arena : Arena
  program : Program
  diagnostics : Diagnostics
  outfile : Option String
  ignoredOutfiles : List String

/-- The program that some sources make for a processor. -/
def read (cpu : Cpu) (fs : FileSystem) (stdin : Except FileError (List UInt8))
    (inputs : List Input) : Outcome :=
  let (r, children) := readAll fs { cpu, input := stdin } inputs
  ⟨r.arena.set 0 (.sequence .topLevel (children.map Node.number)), ⟨children, r.size⟩,
    r.diagnostics, r.outfile, r.ignoredOutfiles⟩

end Source
end Assembler6502
