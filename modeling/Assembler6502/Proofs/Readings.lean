import Assembler6502.Proofs.Holding
import Assembler6502.Proofs.Positions
import Assembler6502.Proofs.Written

/-!
# What reading adds

Reading a line, a file or all sources adds to what was read before. Faults are added behind those
that were found, and all of them are faults of the sources; there is nothing to warn of. Numbers are
given out in order, so the nodes of what is read are numbered in order, a sequence behind its parts,
and with numbers that were not given out before. The arena holds these nodes, and those of the lines
that were dropped; no node is overwritten before the end, when the root gets its children. The
processor and the files being read are in the end what they were.

## Main definitions

* `Reading.Frame`: what stays as it is while a text is read
* `Reading.Adds`: what reading adds

## Main results

* `Reading.adds_readLines`, `Reading.adds_loadWithin`: lines and files
* `Source.adds_read`: all sources
-/

namespace Assembler6502

/-! ## Reading -/

namespace Reading

/-- What stays as it is while a text is read: the processor, and the files around the text. -/
structure Frame where
  cpu : Cpu
  including : List FileKey

def frame (r : Reading) : Frame :=
  ⟨r.cpu, r.including⟩

/-- Faults of the sources are added, and nodes with new numbers, which are added to the arena. -/
structure Adds (r r' : Reading) (nodes : List Node) : Prop where
  faults : ∃ added, r'.diagnostics.errors = r.diagnostics.errors ++ added ∧
    ∀ fault ∈ added, ∃ e, fault.value = .parse e
  warnings : r'.diagnostics.warnings = r.diagnostics.warnings
  numbers : Ascending r.size r'.size (Node.numbersAll nodes)
  gains : r.arena.Gains r'.arena nodes
  frame : r'.frame = r.frame

variable {r r' r'' : Reading} {nodes more : List Node} {fs : FileSystem} {location : Location}

namespace Adds

theorem of_eq (hd : r'.diagnostics = r.diagnostics) (ha : r'.arena = r.arena)
    (hf : r'.frame = r.frame) : Adds r r' [] :=
  ⟨⟨[], by simp [hd], by simp⟩, by rw [hd], .nil (by simp [size, ha]), ha ▸ .nil _, hf⟩

theorem append (h : Adds r r' nodes) (h' : Adds r' r'' more) : Adds r r'' (nodes ++ more) := by
  obtain ⟨added, hadded, hparse⟩ := h.faults
  obtain ⟨added', hadded', hparse'⟩ := h'.faults
  refine ⟨⟨added ++ added', by rw [hadded', hadded, List.append_assoc], fun fault hfault => ?_⟩,
    h'.warnings.trans h.warnings, ?_, h.gains.append h'.gains, h'.frame.trans h.frame⟩
  · rcases List.mem_append.mp hfault with hfault | hfault
    · exact hparse fault hfault
    · exact hparse' fault hfault
  · rw [Node.numbersAll_append]
    exact h.numbers.append h'.numbers

theorem trans (h : Adds r r' []) (h' : Adds r' r'' nodes) : Adds r r'' nodes :=
  h.append h'

theorem of_same (h : Adds r' r'' nodes) (hd : r'.diagnostics = r.diagnostics)
    (ha : r'.arena = r.arena) (hf : r'.frame = r.frame) : Adds r r'' nodes :=
  (of_eq hd ha hf).trans h

theorem trans_nil (h : Adds r r' nodes) (h' : Adds r' r'' []) : Adds r r'' nodes := by
  have hboth := h.append h'
  rwa [List.append_nil] at hboth

theorem drop (h : Adds r r' nodes) : Adds r r' [] :=
  ⟨h.faults, h.warnings, .nil h.numbers.le, h.gains.drop, h.frame⟩

theorem sequence (h : Adds r r' nodes) (location : Location) :
    Adds r (r'.gather location nodes).1 [(r'.gather location nodes).2] := by
  refine ⟨h.faults, h.warnings, ?_, h.gains.sequence location, h.frame⟩
  simp only [gather, size, Arena.size_push, Node.numbersAll, Node.numbers, List.append_nil]
  exact h.numbers.append (.singleton _)

end Adds

theorem adds_error (r : Reading) (location : Location) (e : ParseError) :
    Adds r (r.error location e) [] :=
  ⟨⟨[⟨location, .parse e⟩], rfl, by simp⟩, rfl, .nil (Nat.le_refl _), .nil _, rfl⟩

theorem adds_make (r : Reading) (location : Location) (items : List Item) :
    Adds r (r.make location items).1 (r.make location items).2 := by
  obtain ⟨hgains, hsize⟩ := r.arena.gains_ofFragments (items.map (.ofItem location))
  refine ⟨⟨[], by simp [make], by simp⟩, rfl, ?_, hgains, rfl⟩
  have hnumbers := Node.ascending_ofFragments r.size (items.map (.ofItem location))
  simp only [make, size, hsize] at hnumbers ⊢
  exact hnumbers

theorem adds_reportFaults (file : String) (faults : List (Position × LexError)) (r : Reading) :
    Adds r (r.reportFaults file faults) [] := by
  induction faults generalizing r with
  | nil => exact .of_eq rfl rfl rfl
  | cons fault rest ih => exact (adds_error r _ _).trans (ih _)

/-- Loading adds to what was read. -/
def Loader.Adding (load : Loader) : Prop :=
  ∀ location directory name once r,
    Adds r (load location directory name once r).1
      (load location directory name once r).2.toList

variable {load : Loader}

theorem adds_perform (hload : load.Adding) (directory : String) (phrase : Source.Phrase) :
    Yields (fun x => Adds r x.1 x.2) (r.perform fs load directory location phrase) := by
  intro x hx
  cases performs_perform directory phrase x hx with
  | nothing | outfile | charmap => exact .of_eq rfl rfl rfl
  | item | reserve | part => exact adds_make r location _
  | file name once => exact hload location directory name once r

theorem adds_readStatements (hload : load.Adding) (file directory : String) (tokens : List Token) :
    Adds r (r.readStatements fs load file directory tokens).1
      (r.readStatements fs load file directory tokens).2 := by
  simp only [readStatements]
  generalize lineLocation file tokens = location
  generalize (Source.takeLabels r.anonymousLabels tokens).2.1 = count
  have hlabels := (adds_make { r with anonymousLabels := count } location
    ((Source.takeLabels r.anonymousLabels tokens).1.map .mark)).of_same (r := r) rfl rfl rfl
  split
  · rename_i r' nodes houtcome
    refine hlabels.append ?_
    exact Yields.bind (fun phrase => adds_perform hload directory phrase) (r', nodes) houtcome
  · -- The labels of a faulty line are dropped with the rest of it.
    exact hlabels.drop.trans (adds_error _ location _)

/-- **Lines add to what was read.** -/
theorem adds_readLines (hload : load.Adding) (file directory : String)
    (lines : List Source.Line) (r : Reading) :
    Adds r (readLines fs load file directory r lines).1
      (readLines fs load file directory r lines).2 := by
  induction lines generalizing r with
  | nil => exact .of_eq rfl rfl rfl
  | cons line rest ih =>
    exact ((adds_readStatements hload file directory line.tokens).trans_nil
      (adds_reportFaults file line.faults _)).append (ih _)

theorem adds_readText (hload : load.Adding) (file directory : String) (location : Location)
    (text : List Char) (r : Reading) :
    Adds r (r.readText fs load file directory location text).1
      [(r.readText fs load file directory location text).2] := by
  rw [readText_eq]
  exact (adds_readLines hload file directory (Source.lines text) r).sequence location

/-- **A file adds to what was read**, with the files inside it. -/
theorem adds_loadWithin (fs : FileSystem) (depth : Nat) : (loadWithin fs depth).Adding := by
  induction depth with
  | zero => exact fun location directory name once r => .of_eq rfl rfl rfl
  | succ depth ih =>
    intro location directory name once r
    simp only [loadWithin, loadInside]
    split
    · split
      · exact (adds_error _ location _).of_same rfl rfl rfl
      · exact (adds_readText ih _ _ location _ _).of_same rfl rfl rfl
    · split
      · exact .of_eq rfl rfl rfl
      · split
        · exact adds_error r location _
        · split
          · exact (adds_error _ location _).of_same rfl rfl rfl
          · -- Inside of the file there is one more file around; behind it there is not.
            obtain ⟨hfaults, hwarnings, hnumbers, hgains, hframe⟩ :=
              adds_readText ih _ _ location _ _
            exact ⟨hfaults, hwarnings, hnumbers, hgains,
              congrArg (fun f => Frame.mk f.cpu f.including.tail) hframe⟩

end Reading

namespace Source

theorem adds_readAll (fs : FileSystem) (inputs : List Input) (r : Reading) :
    Reading.Adds r (readAll fs r inputs).1 (readAll fs r inputs).2 := by
  have hload : Reading.Loader.Adding (Reading.load fs) := Reading.adds_loadWithin fs _
  induction inputs generalizing r with
  | nil => exact .of_eq rfl rfl rfl
  | cons input rest ih =>
    refine Reading.Adds.append ?_ (ih _)
    cases input with
    | text name contents directory => exact Reading.adds_readText hload name directory _ contents r
    | file path => exact hload _ _ _ _ r

/-- **What all sources add up to**: faults of the sources, and nodes that are numbered in order,
with numbers that are given out, and held by the arena. -/
theorem adds_read (cpu : Cpu) (fs : FileSystem) (stdin : Except FileError (List UInt8))
    (inputs : List Input) :
    (∀ fault ∈ (read cpu fs stdin inputs).diagnostics.errors, ∃ e, fault.value = .parse e) ∧
      Ascending 1 (read cpu fs stdin inputs).program.size
        (Node.numbersAll (read cpu fs stdin inputs).program.children) ∧
      Arena.Gains {} (readAll fs { cpu, input := stdin } inputs).1.arena
        (read cpu fs stdin inputs).program.children := by
  obtain ⟨⟨added, hadded, hparse⟩, -, hnumbers, hgains, -⟩ :=
    adds_readAll fs inputs { cpu, input := stdin }
  refine ⟨fun fault hfault => hparse fault ?_, hnumbers, hgains⟩
  rw [List.nil_append] at hadded
  exact hadded ▸ hfault

theorem warnings_read (cpu : Cpu) (fs : FileSystem) (stdin : Except FileError (List UInt8))
    (inputs : List Input) : (read cpu fs stdin inputs).diagnostics.warnings = [] :=
  (adds_readAll fs inputs { cpu, input := stdin }).warnings

end Source
end Assembler6502
