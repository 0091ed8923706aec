import Assembler6502.Proofs.Lexemes
import Assembler6502.Proofs.LineReading

/-!
# Reading twice

Reading never looks at the numbers that it gives out, nor at what it has told. So two readings that
differ in these things only, and read lines with the same lexemes, stay so: they make the same
statements, leave the same character map, the same anonymous labels and the same files behind, and
tell the same. How much of the places, of what is told and of the nodes is the same on both sides is
left open: it is enough that the ways in which reading puts these things together respect it.

## Main definitions

* `Told`: what reading tells and never looks at again
* `Resemblance`: how two readings may resemble each other
* `Resemblance.Between`: states of reading that do
* `Resemblance.Respected`: loaders that keep it so

## Main results

* `Resemblance.lineOutcome`, `Resemblance.readStatements`: one line
* `Resemblance.readLines`: the same lines
* `Resemblance.respected_loadWithin`: files
-/

namespace Assembler6502

/-- What reading tells and never looks at again. -/
structure Told where
  diagnostics : Diagnostics
  ignoredOutfiles : List String

def Told.error (t : Told) (location : Location) (e : ParseError) : Told :=
  { t with diagnostics := t.diagnostics.error location (.parse e) }

def Told.ignore (t : Told) (name : String) : Told :=
  { t with ignoredOutfiles := t.ignoredOutfiles ++ [name] }

namespace Reading

def told (r : Reading) : Told :=
  ⟨r.diagnostics, r.ignoredOutfiles⟩

/-- Faults inside tokens, as they are told. -/
def lexicalFaults (file : String) (faults : List (Position × LexError)) : List (Located Fault) :=
  faults.map fun fault => ⟨locate file fault.1, .parse (.lexical fault.2)⟩

theorem reportFaults_eq (file : String) (r : Reading) (faults : List (Position × LexError)) :
    r.reportFaults file faults =
      { r with diagnostics.errors := r.diagnostics.errors ++ lexicalFaults file faults } := by
  induction faults generalizing r with
  | nil => simp [reportFaults, lexicalFaults]
  | cons fault rest ih =>
    refine (ih (r.error (locate file fault.1) (.lexical fault.2))).trans ?_
    simp [error, Diagnostics.error, lexicalFaults]

end Reading

/-- How two readings may resemble each other: which places, which things told and which nodes count
as the same. -/
structure Resemblance where
  place : Location → Location → Prop
  told : Told → Told → Prop
  nodes : List Node → List Node → Prop
  place_refl : ∀ location, place location location
  told_error : ∀ {t t' location location'} (e : ParseError), told t t' → place location location' →
    told (t.error location e) (t'.error location' e)
  told_ignore : ∀ {t t'} (name : String), told t t' → told (t.ignore name) (t'.ignore name)
  nodes_nil : nodes [] []
  nodes_append : ∀ {ns ns' ms ms'}, nodes ns ns' → nodes ms ms' → nodes (ns ++ ms) (ns' ++ ms')
  nodes_leaf : ∀ {location location'} (id id' : Nat) (item : Item), place location location' →
    nodes [.leaf id ⟨location, item⟩] [.leaf id' ⟨location', item⟩]
  nodes_sequence : ∀ {location location' ns ns'} (id id' : Nat), place location location' →
    nodes ns ns' → nodes [.sequence id location ns] [.sequence id' location' ns']

namespace Resemblance

open Reading

/-- States of reading that differ in the nodes and in what was told only. -/
structure Between (ρ : Resemblance) (r r' : Reading) : Prop where
  same : { r with
    arena := r'.arena, diagnostics := r'.diagnostics, ignoredOutfiles := r'.ignoredOutfiles } = r'
  told : ρ.told r.told r'.told

/-- What was read and the nodes that were made resemble each other. -/
def Results (ρ : Resemblance) (x x' : Reading × List Node) : Prop :=
  ρ.Between x.1 x'.1 ∧ ρ.nodes x.2 x'.2

variable {ρ : Resemblance} {r r' : Reading} {location location' : Location} {load : Loader}

namespace Between

theorem exists_eq (h : ρ.Between r r') :
    ∃ arena d ignored, r' = { r with arena, diagnostics := d, ignoredOutfiles := ignored } :=
  ⟨_, _, _, h.same.symm⟩

theorem anonymousLabels (h : ρ.Between r r') : r.anonymousLabels = r'.anonymousLabels := by
  rw [← h.same]

theorem setting (h : ρ.Between r r') (count : Nat) :
    (⟨r.cpu, r.charmap, count⟩ : Source.Setting) = ⟨r'.cpu, r'.charmap, count⟩ := by
  rw [← h.same]

theorem withArena (h : ρ.Between r r') (arena arena' : Arena) :
    ρ.Between { r with arena } { r' with arena := arena' } :=
  ⟨by rw [← h.same], h.told⟩

theorem withLabels (h : ρ.Between r r') (anonymousLabels : Nat) :
    ρ.Between { r with anonymousLabels } { r' with anonymousLabels } :=
  ⟨by rw [← h.same], h.told⟩

theorem withCharmap (h : ρ.Between r r') (charmap : Charmap) :
    ρ.Between { r with charmap } { r' with charmap } :=
  ⟨by rw [← h.same], h.told⟩

theorem withIncluding (h : ρ.Between r r') (change : List FileKey → List FileKey) :
    ρ.Between { r with including := change r.including }
      { r' with including := change r'.including } :=
  ⟨by rw [← h.same], h.told⟩

theorem error (h : ρ.Between r r') (hplace : ρ.place location location') (e : ParseError) :
    ρ.Between (r.error location e) (r'.error location' e) :=
  ⟨by rw [← h.same]; rfl, ρ.told_error e h.told hplace⟩

theorem reportFaults (h : ρ.Between r r') (file : String) (faults : List (Position × LexError)) :
    ρ.Between (r.reportFaults file faults) (r'.reportFaults file faults) := by
  induction faults generalizing r r' with
  | nil => exact h
  | cons fault rest ih => exact ih (h.error (ρ.place_refl _) _)

/-- Nodes are made alike, whatever their numbers. -/
theorem make (h : ρ.Between r r') (hplace : ρ.place location location') (items : List Item) :
    ρ.Results (r.make location items) (r'.make location' items) := by
  have hnodes (size size' : Nat) :
      ρ.nodes (Node.ofFragments size (items.map (.ofItem location))).1
        (Node.ofFragments size' (items.map (.ofItem location'))).1 := by
    induction items generalizing size size' with
    | nil => exact ρ.nodes_nil
    | cons item rest ih =>
      exact ρ.nodes_append (ρ.nodes_leaf size size' item hplace) (ih (size + 1) (size' + 1))
  exact ⟨h.withArena _ _, hnodes _ _⟩

end Between

/-- Loading keeps a resemblance. -/
def Respected (ρ : Resemblance) (load : Loader) : Prop :=
  ∀ {r r' : Reading} {location location' : Location} (directory name : String) (once : Bool),
    ρ.Between r r' → ρ.place location location' →
    ρ.Between (load location directory name once r).1 (load location' directory name once r').1 ∧
      ρ.nodes (load location directory name once r).2.toList
        (load location' directory name once r').2.toList

/-- A phrase does alike what is alike, or fails for the same reason. -/
theorem perform (fs : FileSystem) (hload : ρ.Respected load) (directory : String)
    (phrase : Source.Phrase) (h : ρ.Between r r') (hplace : ρ.place location location') :
    Agree ρ.Results (r.perform fs load directory location phrase)
      (r'.perform fs load directory location' phrase) := by
  cases phrase with
  | nothing => exact .ok ⟨h, ρ.nodes_nil⟩
  | item step => exact .ok (h.make hplace _)
  | reserve symbol size => exact .ok (h.make hplace _)
  | outfile name =>
    have htold := h.told
    obtain ⟨arena, d, ignored, rfl⟩ := h.exists_eq
    simp only [Reading.perform]
    -- Both know the same name so far: the first one is kept, and a later one is told.
    cases r.outfile with
    | none => exact .ok ⟨⟨rfl, htold⟩, ρ.nodes_nil⟩
    | some other => exact .ok ⟨⟨rfl, ρ.told_ignore name htold⟩, ρ.nodes_nil⟩
  | «include» name once => exact .ok (hload directory name once h hplace)
  | incbin name offset length =>
    simp only [Reading.perform]
    cases fs.read (Path.join directory name) with
    | error e => exact .error _
    | ok bytes => exact .same fun item => .ok (h.make hplace _)
  | charmapReset => exact .ok ⟨h.withCharmap _, ρ.nodes_nil⟩
  | charmapEntries values =>
    obtain ⟨arena, d, ignored, rfl⟩ := h.exists_eq
    simp only [Reading.perform]
    refine .same fun values => ?_
    cases values with
    | nil => exact .error _
    | cons base entries => exact .same fun charmap => .ok ⟨h.withCharmap charmap, ρ.nodes_nil⟩
  | charmapFile name =>
    simp only [Reading.perform]
    cases fs.read (Path.join directory name) with
    | error e => exact .error _
    | ok bytes =>
      dsimp only
      cases Charmap.ofBytes? bytes with
      | none => exact .error _
      | some charmap => exact .ok ⟨h.withCharmap charmap, ρ.nodes_nil⟩

section Line

variable (file file' : String) {tokens tokens' : List Token} (ht : Token.Same tokens tokens')
  (hplace : ρ.place (lineLocation file tokens) (lineLocation file' tokens'))
  (h : ρ.Between r r')
include ht hplace h

theorem readLabels : ρ.Results (r.readLabels file tokens) (r'.readLabels file' tokens') := by
  obtain ⟨hlabels, hcount, -⟩ := Source.takeLabels_of_same r.anonymousLabels ht
  simp only [Reading.readLabels, ← h.anonymousLabels, ← hlabels, ← hcount]
  exact (h.withLabels _).make hplace _

/-- The phrase of a line is the same, and what it does is alike. -/
theorem lineOutcome (fs : FileSystem) (hload : ρ.Respected load) (directory : String) :
    Agree ρ.Results (r.lineOutcome fs load file directory tokens)
      (r'.lineOutcome fs load file' directory tokens') := by
  obtain ⟨-, hcount, hrest⟩ := Source.takeLabels_of_same r.anonymousLabels ht
  have hlabelled := (readLabels file file' ht hplace h).1
  simp only [Reading.lineOutcome, ← h.anonymousLabels, ← hcount]
  rw [← hlabelled.setting, Source.readPhrase_of_same _ hrest]
  exact .same fun phrase => perform fs hload directory phrase hlabelled hplace

/-- **A line is read alike** where its lexemes are the same. -/
theorem readStatements (fs : FileSystem) (hload : ρ.Respected load) (directory : String) :
    ρ.Results (r.readStatements fs load file directory tokens)
      (r'.readStatements fs load file' directory tokens') := by
  obtain ⟨hlabelled, hnodes⟩ := readLabels file file' ht hplace h
  have houtcome := lineOutcome file file' ht hplace h fs hload directory
  rw [readStatements_eq_match, readStatements_eq_match]
  generalize r.lineOutcome fs load file directory tokens = outcome at houtcome
  generalize r'.lineOutcome fs load file' directory tokens' = outcome' at houtcome
  cases houtcome with
  | ok h => exact ⟨h.1, ρ.nodes_append hnodes h.2⟩
  -- The nodes of the labels are dropped on both sides.
  | error e => exact ⟨hlabelled.error hplace e, ρ.nodes_nil⟩

end Line

/-- **The same lines are read alike.** -/
theorem readLines (fs : FileSystem) (hload : ρ.Respected load) (file directory : String)
    (lines : List Source.Line) (h : ρ.Between r r') :
    ρ.Results (Reading.readLines fs load file directory r lines)
      (Reading.readLines fs load file directory r' lines) := by
  induction lines generalizing r r' with
  | nil => exact ⟨h, ρ.nodes_nil⟩
  | cons line rest ih =>
    obtain ⟨hline, hnodes⟩ :=
      readStatements file file (Token.Same.refl line.tokens) (ρ.place_refl _) h fs hload directory
    obtain ⟨hrest, hnodes'⟩ := ih (hline.reportFaults file line.faults)
    exact ⟨hrest, ρ.nodes_append hnodes hnodes'⟩

theorem readText (fs : FileSystem) (hload : ρ.Respected load) (file directory : String)
    (text : List Char) (h : ρ.Between r r') (hplace : ρ.place location location') :
    ρ.Between (r.readText fs load file directory location text).1
        (r'.readText fs load file directory location' text).1 ∧
      ρ.nodes [(r.readText fs load file directory location text).2]
        [(r'.readText fs load file directory location' text).2] := by
  obtain ⟨hread, hnodes⟩ := readLines fs hload file directory (Source.lines text) h
  rw [Reading.readText_eq, Reading.readText_eq]
  exact ⟨hread.withArena _ _, ρ.nodes_sequence _ _ hplace hnodes⟩

/-- **A file is read alike** wherever it is named, with the files inside it. -/
theorem respected_loadWithin (ρ : Resemblance) (fs : FileSystem) (depth : Nat) :
    ρ.Respected (loadWithin fs depth) := by
  induction depth with
  | zero => exact fun directory name once h hplace => ⟨h, ρ.nodes_nil⟩
  | succ depth ih =>
    intro r r' location location' directory name once h hplace
    have htold := h.told
    obtain ⟨arena, d, ignored, rfl⟩ := h.exists_eq
    simp only [loadWithin, loadInside]
    split
    · -- Standard input is used up on both sides.
      have hused : ρ.Between { r with input := .ok [] }
          { r with arena, diagnostics := d, ignoredOutfiles := ignored, input := .ok [] } :=
        ⟨rfl, htold⟩
      cases r.input >>= FileSystem.decode with
      | error e => exact ⟨hused.error hplace _, ρ.nodes_nil⟩
      | ok text => exact readText fs ih _ _ text hused hplace
    · split
      · exact ⟨h, ρ.nodes_nil⟩
      · split
        · exact ⟨h.error hplace _, ρ.nodes_nil⟩
        · generalize fs.key (Path.join directory name) = key
          have hloaded : ρ.Between { r with loaded := key :: r.loaded }
              { r with
                arena, diagnostics := d, ignoredOutfiles := ignored
                loaded := key :: r.loaded } := ⟨rfl, htold⟩
          cases fs.read (Path.join directory name) >>= FileSystem.decode with
          | error e => exact ⟨hloaded.error hplace _, ρ.nodes_nil⟩
          | ok text =>
            -- The file is one of the files around what it includes, and no longer behind it.
            have hread := readText fs ih (Path.join directory name)
              (Path.parent (Path.join directory name)) text
              (hloaded.withIncluding (key :: ·)) hplace
            dsimp only at hread ⊢
            generalize Reading.readText fs _ _ _ _ _ _ = inside at hread ⊢
            generalize Reading.readText fs _ _ _ _ _ _ = inside' at hread ⊢
            exact ⟨hread.1.withIncluding List.tail, hread.2⟩

end Resemblance
end Assembler6502
