import Assembler6502.Proofs.PhysicalLines
import Assembler6502.Proofs.Readings
import Assembler6502.Proofs.Resemblance

/-!
# Reading is line by line

A text is read token by token, with two tokens in hand, across the ends of lines. Still each line of
characters is read alone: up to the end of the file, the loop calls for each line once, in order,
with the first token of the line in hand, whatever became of the lines before. What a line makes and
tells is determined by its characters, its number and what the lines before it left behind: the
character map, the anonymous labels, the output file and the files read. It does not depend on what
was told before, and a line that is dropped for a fault adds nothing to the program.

## Main definitions

* `Node.fragment`: a node without its numbers
* `Reading.State`: what the lines of a text leave to the lines behind them
* `Reading.State.readLine`: what a line makes, read alone
* `Reading.State.readEach`: what some lines make, each read behind those before it

## Main results

* `Reading.parseLine_readLine`: a line makes what it makes alone
* `Reading.readText_line_by_line`: a text is read line by line
-/

namespace Assembler6502

namespace Node

mutual

/-- A node without its numbers. -/
def fragment : Node → Fragment
  | leaf _ statement => .statement statement
  | sequence _ location children => .sequence location (fragments children)

/-- Some nodes without their numbers. -/
def fragments : List Node → List Fragment
  | [] => []
  | node :: rest => fragment node :: fragments rest

end

theorem fragments_append (ns ms : List Node) :
    fragments (ns ++ ms) = fragments ns ++ fragments ms := by
  induction ns with
  | nil => rfl
  | cons n rest ih => simp [fragments, ih]

end Node

namespace Reading

/-! ## What a line depends on -/

/-- What the lines of a text leave to the lines behind them. -/
structure State where
  anonymousLabels : Nat
  charmap : Charmap
  loaded : List FileKey
  outfile : Option String
  input : Except FileError (List UInt8)

def state (r : Reading) : State :=
  ⟨r.anonymousLabels, r.charmap, r.loaded, r.outfile, r.input⟩

/-- Reading from a state on, with nothing told and no number given out yet. -/
def State.reading (σ : State) (frame : Frame) : Reading where
  cpu := frame.cpu
  including := frame.including
  anonymousLabels := σ.anonymousLabels
  charmap := σ.charmap
  loaded := σ.loaded
  outfile := σ.outfile
  input := σ.input

/-- On the second side some faults were told before. All else is the same but for the numbers. -/
def behind (before : List (Located Fault)) : Resemblance where
  place := Eq
  told t t' := t'.diagnostics.errors = before ++ t.diagnostics.errors
  nodes ns ns' := Node.fragments ns = Node.fragments ns'
  place_refl _ := rfl
  told_error e h hplace := by
    simp [Told.error, Diagnostics.error, h, hplace]
  told_ignore _ h := h
  nodes_nil := rfl
  nodes_append h h' := by rw [Node.fragments_append, Node.fragments_append, h, h']
  nodes_leaf _ _ item hplace := by rw [hplace]; rfl
  nodes_sequence _ _ hplace h := by simp [Node.fragments, Node.fragment, hplace, h]

variable {fs : FileSystem} {load : Loader} {r r' : Reading} {before : List (Located Fault)}

theorem behind_reading (r : Reading) :
    (behind r.diagnostics.errors).Between (r.state.reading r.frame) r :=
  ⟨rfl, (List.append_nil _).symm⟩

theorem state_eq (h : (behind before).Between r r') : r.state = r'.state := by
  rw [← h.same]
  rfl

theorem errors_eq (h : (behind before).Between r r') :
    r'.diagnostics.errors = before ++ r.diagnostics.errors :=
  h.told

/-! ## One line -/

/-- What a line makes: its parts, or the fault that it is dropped for; the faults that the files it
includes tell; and what it leaves behind. -/
structure LineResult where
  outcome : Except ParseError (List Fragment)
  told : List (Located Fault)
  state : State

namespace LineResult

/-- What is left when a line has been taken, beside what was there before. -/
def Of (r : Reading) (x : Reading × Except ParseError (List Node) × Parser) (result : LineResult) :
    Prop :=
  x.2.1.map Node.fragments = result.outcome ∧
    x.1.diagnostics.errors = r.diagnostics.errors ++ result.told ∧
    x.1.state = result.state

/-- The parts that a line adds. A line that is dropped adds none. -/
def parts (result : LineResult) : List Fragment :=
  match result.outcome with
  | .ok parts => parts
  | .error _ => []

/-- The faults that a line tells. The fault that it is dropped for is the last. -/
def faults (location : Location) (result : LineResult) : List (Located Fault) :=
  match result.outcome with
  | .ok _ => result.told
  | .error e => result.told ++ [⟨location, .parse e⟩]

end LineResult

/-- What a line makes, read alone from its first column on. -/
def State.readLine (fs : FileSystem) (load : Loader) (frame : Frame) (file directory : String)
    (σ : State) (line : List Char × Nat) : LineResult :=
  let p := Parser.ofCursor ⟨⟨line.2, 1⟩, line.1⟩
  let (r, outcome, _) :=
    (σ.reading frame).parseLine fs load directory (locate file p.current.position) p
  ⟨outcome.map Node.fragments, r.diagnostics.errors, r.state⟩

theorem locate_current (file : String) {p : Parser} {ts : List Token} (h : p.Line ts) :
    locate file p.current.position = lineLocation file ts := by
  obtain ⟨rest, rfl⟩ := h.exists_cons
  rfl

/-- **A line makes what it makes alone**, whatever was told before and whatever follows it. -/
theorem parseLine_readLine (fs : FileSystem) (hload : ∀ before, (behind before).Respected load)
    (file directory : String) (r : Reading) {p : Parser} {line : List Char × Nat}
    (h : p.Line (Source.lineTokens line.2 line.1)) :
    (r.state.readLine fs load r.frame file directory line).Of r
      (r.parseLine fs load directory (locate file p.current.position) p) := by
  have halone : (Parser.ofCursor ⟨⟨line.2, 1⟩, line.1⟩).Line (Source.lineTokens line.2 line.1) :=
    Parser.line_before _ _ _
  -- On both sides the tokens of the line are read, from states that are alike.
  obtain ⟨q, hparse, -⟩ := parseLine_eq fs load file directory r h
  obtain ⟨q', hparse', -⟩ :=
    parseLine_eq fs load file directory (r.state.reading r.frame) halone
  have hsame := Token.Same.refl (Source.lineTokens line.2 line.1)
  have hlabels := (Resemblance.readLabels file file hsame rfl (behind_reading r)).1
  have hnodes := (Resemblance.readLabels file file hsame rfl (behind_reading r)).2
  have houtcome := Resemblance.lineOutcome file file hsame rfl (behind_reading r) fs
    (hload r.diagnostics.errors) directory
  simp only [State.readLine]
  rw [locate_current file h, locate_current file halone, hparse, hparse']
  generalize r.lineOutcome fs load file directory _ = outcome at houtcome
  generalize (r.state.reading r.frame).lineOutcome fs load file directory _ = outcome' at houtcome
  cases houtcome with
  | ok hresults =>
    obtain ⟨hread, hmore⟩ := hresults
    refine ⟨?_, errors_eq hread, (state_eq hread).symm⟩
    exact congrArg Except.ok ((behind _).nodes_append hnodes hmore).symm
  | error e => exact ⟨rfl, errors_eq hlabels, (state_eq hlabels).symm⟩

/-! ## All lines -/

/-- What some lines make, each read behind those before it. -/
def State.readEach (fs : FileSystem) (load : Loader) (frame : Frame) (file directory : String) :
    State → List (List Char × Nat) → List LineResult
  | _, [] => []
  | σ, line :: rest =>
    let result := σ.readLine fs load frame file directory line
    result :: readEach fs load frame file directory result.state rest

/-- What some lines leave behind. -/
def State.after (σ : State) (results : List LineResult) : State :=
  results.foldl (fun _ result => result.state) σ

/-- What is read of a line is what it makes alone. -/
theorem readStatements_readLine (fs : FileSystem)
    (hload : ∀ before, (behind before).Respected load) (file directory : String) (r : Reading)
    (line : List Char × Nat) :
    let tokens := Source.lineTokens line.2 line.1
    let result := r.state.readLine fs load r.frame file directory line
    let read := r.readStatements fs load file directory tokens
    Node.fragments read.2 = result.parts ∧
      read.1.diagnostics.errors =
        r.diagnostics.errors ++ result.faults (lineLocation file tokens) ∧
      read.1.state = result.state := by
  have h : (Parser.ofCursor ⟨⟨line.2, 1⟩, line.1⟩).Line (Source.lineTokens line.2 line.1) :=
    Parser.line_before _ _ _
  obtain ⟨houtcome, htold, hstate⟩ := parseLine_readLine fs hload file directory r h
  intro tokens result read
  simp only [read, tokens, readStatements_eq_parseLine fs load file directory r h]
  rw [locate_current file h] at houtcome htold hstate
  change _ = result.outcome at houtcome
  change _ = _ ++ result.told at htold
  change _ = result.state at hstate
  simp only [LineResult.parts, LineResult.faults, ← houtcome]
  generalize r.parseLine fs load directory _ _ = x at htold hstate
  obtain ⟨r', outcome, q⟩ := x
  cases outcome with
  | ok nodes => exact ⟨rfl, htold, hstate⟩
  | error e =>
    refine ⟨rfl, ?_, hstate⟩
    show r'.diagnostics.errors ++ _ = _
    rw [htold, List.append_assoc]
    rfl

/-- What the next line starts from: the reading behind a line, when the faults inside tokens have
been told. -/
theorem behind_line (fs : FileSystem) (hload : ∀ before, (behind before).Respected load)
    (hadds : load.Adding) (file directory : String) (r : Reading) (line : List Char × Nat)
    (lexical : List (Position × LexError)) :
    let tokens := Source.lineTokens line.2 line.1
    let result := r.state.readLine fs load r.frame file directory line
    let next := (r.readStatements fs load file directory tokens).1.reportFaults file lexical
    next.state = result.state ∧ next.frame = r.frame ∧
      next.diagnostics.errors = r.diagnostics.errors ++
        (result.faults (lineLocation file tokens) ++ lexicalFaults file lexical) := by
  intro tokens result next
  obtain ⟨-, herrors, hstate⟩ := readStatements_readLine fs hload file directory r line
  have hframe : (r.readStatements fs load file directory tokens).1.frame = r.frame :=
    (adds_readStatements hadds file directory tokens).frame
  change _ = result.state at hstate
  change _ = r.diagnostics.errors ++ result.faults (lineLocation file tokens) at herrors
  clear_value result
  simp only [next]
  generalize r.readStatements fs load file directory tokens = read at herrors hstate hframe ⊢
  rw [reportFaults_eq, ← List.append_assoc, ← herrors]
  exact ⟨hstate, hframe, rfl⟩

theorem readLines_eq (fs : FileSystem) (hload : ∀ before, (behind before).Respected load)
    (hadds : load.Adding) (file directory : String) (r : Reading) {lines : List Source.Line}
    {physical : List (List Char × Nat)}
    (h : lines.map (·.tokens) = physical.map fun line => Source.lineTokens line.2 line.1) :
    let results := r.state.readEach fs load r.frame file directory physical
    let read := readLines fs load file directory r lines
    Node.fragments read.2 = results.flatMap (·.parts) ∧
      read.1.diagnostics.errors = r.diagnostics.errors ++
        (results.zip lines).flatMap (fun x =>
          x.1.faults (lineLocation file x.2.tokens) ++ lexicalFaults file x.2.faults) ∧
      read.1.state = r.state.after results := by
  induction lines generalizing r physical with
  | nil =>
    obtain rfl := List.map_eq_nil_iff.mp h.symm
    exact ⟨rfl, (List.append_nil _).symm, rfl⟩
  | cons line rest ih =>
    -- The first line makes what it makes alone, and the others follow from what it leaves.
    obtain ⟨first, others, rfl, hfirst, hothers⟩ := List.map_eq_cons_iff.mp h.symm
    obtain ⟨hparts, -, -⟩ := readStatements_readLine fs hload file directory r first
    obtain ⟨hstate, hframe, herrors⟩ :=
      behind_line fs hload hadds file directory r first line.faults
    rw [hfirst] at hparts hstate hframe herrors
    simp only [readLines, State.readEach]
    obtain ⟨hparts', herrors', hstate'⟩ := ih _ hothers.symm
    rw [hstate, hframe] at hparts' herrors' hstate'
    rw [Node.fragments_append, hparts, hparts', herrors', hstate', herrors]
    exact ⟨rfl, List.append_assoc _ _ _, rfl⟩

/-- **Each call makes what its line makes alone.** -/
theorem Parses.results (fs : FileSystem) (hload : ∀ before, (behind before).Respected load)
    (hadds : load.Adding) {file directory : String} {p : Parser} {calls : List (Reading × Parser)}
    {read : Reading × List Node} {lines : List Source.Line} {physical : List (List Char × Nat)}
    (h : Parses fs load file directory r p calls read)
    (hreads : List.Forall₂ (Reads fs load file directory) calls lines)
    (htokens : lines.map (·.tokens) = physical.map fun line => Source.lineTokens line.2 line.1) :
    List.Forall₂ (fun call result => result.Of call.1
      (call.1.parseLine fs load directory (locate file call.2.current.position)
        { call.2 with lineEnded := false }))
      calls (r.state.readEach fs load r.frame file directory physical) := by
  induction h generalizing lines physical with
  | finish =>
    cases hreads
    obtain rfl := List.map_eq_nil_iff.mp htokens.symm
    exact .nil
  | @line r r' p p' nodes calls read _ hstep _ ih =>
    cases hreads with
    | @cons _ line _ lines hread hreads =>
      obtain ⟨first, others, rfl, hfirst, hothers⟩ := List.map_eq_cons_iff.mp htokens.symm
      have hline : p.Line (Source.lineTokens first.2 first.1) := hfirst ▸ hread.before
      refine .cons (parseLine_readLine fs hload file directory r (hline.withLineEnded false)) ?_
      -- What the line leaves behind is what the next call starts from.
      obtain ⟨hstate, hframe, -⟩ := behind_line fs hload hadds file directory r first line.faults
      have hnext : r' = (r.readStatements fs load file directory line.tokens).1.reportFaults file
          line.faults := by
        have hfst := congrArg Prod.fst hread.step
        rwa [hstep] at hfst
      rw [hfirst] at hstate hframe
      have hrest := ih hreads hothers.symm
      rw [hnext, hstate, hframe] at hrest
      exact hrest

/-- **A text is read line by line**, whatever fails. Up to the end of the file, the loop calls for
each line of characters once, in order, with the first token of the line in hand and the rest of the
line ahead. What a call makes, tells and leaves is what its line comes to when it is read alone,
with its number, behind what the lines before it left. All nodes and all faults are those of the
lines, but for the faults inside tokens; and a line that is dropped for a fault has no nodes. -/
theorem readText_line_by_line (fs : FileSystem) (depth : Nat) (file directory : String)
    (location : Location) (r : Reading) (text : List Char) :
    let load := loadWithin fs depth
    let reached := Source.reachedLines text
    let results := r.state.readEach fs load r.frame file directory reached
    ∃ calls read,
      -- The loop makes these calls and no others, and then is at the end of the text.
      (Parses fs load file directory r (Parser.ofText text) calls read ∧
        (∀ calls' read', Parses fs load file directory r (Parser.ofText text) calls' read' →
          calls' = calls ∧ read' = read) ∧
        r.readText fs load file directory location text = read.1.gather location read.2) ∧
      -- There is one call for each line of characters, in front of the tokens of the line.
      ((Source.physicalLines text).flatten = text ∧
        reached <+: (Source.physicalLines text).zipIdx 1 ∧
        List.Forall₂ (fun call line => call.2.Line (Source.lineTokens line.2 line.1))
          calls reached ∧
        ∀ line ∈ reached, ∀ token ∈ Source.lineTokens line.2 line.1,
          token.position.line = line.2) ∧
      -- What a call comes to is what its line comes to alone.
      List.Forall₂ (fun call result => result.Of call.1
        (call.1.parseLine fs load directory (locate file call.2.current.position)
          { call.2 with lineEnded := false })) calls results ∧
      -- What is made and told is what these lines make and tell; a line that is dropped makes
      -- nothing.
      Node.fragments read.2 = results.flatMap (·.parts) ∧
      read.1.diagnostics.errors = r.diagnostics.errors ++
        (results.zip (Source.lines text)).flatMap (fun x =>
          x.1.faults (lineLocation file x.2.tokens) ++ lexicalFaults file x.2.faults) ∧
      read.1.state = r.state.after results ∧ read.1.frame = r.frame := by
  intro load reached results
  have hload : ∀ before, (behind before).Respected load :=
    fun before => (behind before).respected_loadWithin fs depth
  have hadds := adds_loadWithin fs depth
  have htokens := Source.tokens_lines text
  obtain ⟨calls, hparses, hreads⟩ := exists_parses_ofText fs load file directory r text
  have hcalls : List.Forall₂ (fun call ts => call.2.Line ts) calls
      ((Source.lines text).map (·.tokens)) :=
    List.forall₂_map_right_iff.mpr (hreads.imp fun _ _ h => h.before)
  rw [htokens] at hcalls
  obtain ⟨hparts, herrors, hstate⟩ := readLines_eq fs hload hadds file directory r htokens
  refine ⟨calls, _, ⟨hparses, fun calls' read' h => ?_, readText_eq _ _ _ _ _ _ _⟩,
    ⟨Source.flatten_physicalLines text, List.takeWhile_prefix _,
      List.forall₂_map_right_iff.mp hcalls, ?_⟩,
    hparses.results fs hload hadds hreads htokens, hparts, herrors, hstate,
    (adds_readLines hadds file directory (Source.lines text) r).frame⟩
  · obtain ⟨rfl, rfl⟩ := hparses.unique h
    exact ⟨rfl, rfl⟩
  · intro line hline
    have hmem := (List.takeWhile_sublist _).subset hline
    exact Source.line_lineTokens (List.fst_mem_of_mem_zipIdx hmem) line.2

/-- A text whose second line is dropped and whose last line is not reached. -/
def faultyLine : List Char :=
  "* nop\n* lda #\n* .byte \"a\n ; end".toList

theorem readText_line_by_line_faultyLine :
    let r : Reading := { cpu := .mos6502 }
    let load := loadWithin .empty 1
    let reached := Source.reachedLines faultyLine
    let results := r.state.readEach .empty load r.frame "a.s" "" reached
    reached.map (·.2) = [1, 2, 3] ∧
      results.map (·.outcome.toOption.isSome) = [true, false, true] ∧
      results.map (·.parts.length) = [2, 0, 2] ∧
      ∃ calls read, Parses .empty load "a.s" "" r (Parser.ofText faultyLine) calls read ∧
        calls.length = 3 ∧ Node.fragments read.2 = results.flatMap (·.parts) := by
  intro r load reached results
  obtain ⟨calls, read, ⟨hparses, -⟩, ⟨-, -, hcalls, -⟩, -, hparts, -⟩ :=
    readText_line_by_line .empty 1 "a.s" "" .topLevel r faultyLine
  refine ⟨by decide +kernel, by decide +kernel, by decide +kernel, calls, read, hparses, ?_,
    hparts⟩
  rw [hcalls.length_eq]
  decide +kernel

end Reading
end Assembler6502
