import Assembler6502.Proofs.Positions
import Assembler6502.Proofs.Resemblance
import Assembler6502.Proofs.Scanning

/-!
# Reading the same lines in another place

What is read from a line depends on its lexemes and on what was read before, but not on where the
line stands, on the name of its file and on the faults that were found so far. So lines with the
same lexemes make the same statements, and leave the same character map, the same anonymous labels
and the same files behind; and a fault is found on both sides or on none. The same holds for the
files that the lines include.

## Main definitions

* `Node.items`: the items of some nodes, in order
* `Reading.upToPlaces`: the resemblance of readings that differ in places
* `Reading.Alike`: states of reading that differ in numbers and in places only

## Main results

* `Reading.alike_readLines`: lines with the same lexemes
* `Reading.placeless_loadWithin`: files
-/

namespace Assembler6502

/-- The items of some nodes, in order. -/
def Node.items (ns : List Node) : List Item :=
  (leavesAll ns).map (·.2.item)

theorem Node.items_append (ns ms : List Node) : items (ns ++ ms) = items ns ++ items ms := by
  rw [items, leavesAll_append, List.map_append]
  rfl

@[simp] theorem Node.items_sequence (id : Nat) (location : Location) (ns : List Node) :
    items [.sequence id location ns] = items ns := by
  simp [items, leavesAll, leaves]

namespace Reading

variable {pending pending' : Bool} {r r' : Reading} {load : Loader}

theorem hasErrors_error (d : Diagnostics) (location : Location) (fault : Fault) :
    (d.error location fault).hasErrors = true := by
  simp [Diagnostics.error, Diagnostics.hasErrors]

theorem hasErrors_append (d : Diagnostics) (file : String) (faults : List (Position × LexError)) :
    Diagnostics.hasErrors { d with errors := d.errors ++ lexicalFaults file faults } =
      (d.hasErrors || !faults.isEmpty) := by
  obtain ⟨errors, warnings⟩ := d
  cases errors <;> cases faults <;> rfl

/-- Places do not count, and of the nodes only their items. On both sides a fault was found or is
still to be told, or on none; `pending` and `pending'` say whether one is still to be told. -/
def upToPlaces (pending pending' : Bool) : Resemblance where
  place _ _ := True
  told t t' :=
    (t.diagnostics.hasErrors || pending) = (t'.diagnostics.hasErrors || pending')
  nodes ns ns' := Node.items ns = Node.items ns'
  place_refl _ := trivial
  told_error e _ _ := by simp [Told.error, hasErrors_error]
  told_ignore _ h := h
  nodes_nil := rfl
  nodes_append h h' := by rw [Node.items_append, Node.items_append, h, h']
  nodes_leaf _ _ _ _ := rfl
  nodes_sequence _ _ _ h := by rw [Node.items_sequence, Node.items_sequence, h]

/-- The same state of reading up to nodes and places. -/
abbrev Alike (pending pending' : Bool) (r r' : Reading) : Prop :=
  (upToPlaces pending pending').Between r r'

theorem Alike.intro
    (hsame : { r with
      arena := r'.arena, diagnostics := r'.diagnostics,
      ignoredOutfiles := r'.ignoredOutfiles } = r')
    (hfaulty : (r.diagnostics.hasErrors || pending) = (r'.diagnostics.hasErrors || pending')) :
    Alike pending pending' r r' :=
  ⟨hsame, hfaulty⟩

theorem Alike.faulty (h : Alike pending pending' r r') :
    (r.diagnostics.hasErrors || pending) = (r'.diagnostics.hasErrors || pending') :=
  h.told

theorem Alike.reportFaults {file file' : String} {faults faults' : List (Position × LexError)}
    (h : Alike (!faults.isEmpty || pending) (!faults'.isEmpty || pending') r r') :
    Alike pending pending' (r.reportFaults file faults) (r'.reportFaults file' faults') := by
  have hfaulty := h.faulty
  obtain ⟨arena, d, ignored, rfl⟩ := h.exists_eq
  rw [reportFaults_eq, reportFaults_eq]
  refine .intro rfl ?_
  rw [hasErrors_append, hasErrors_append, Bool.or_assoc, Bool.or_assoc]
  exact hfaulty

/-- Loading does not depend on where the file is named. -/
def Loader.Placeless (load : Loader) : Prop :=
  ∀ pending pending', (upToPlaces pending pending').Respected load

/-- **A file is read alike** wherever it is named, with the files inside it. -/
theorem placeless_loadWithin (fs : FileSystem) (depth : Nat) : (loadWithin fs depth).Placeless :=
  fun pending pending' => (upToPlaces pending pending').respected_loadWithin fs depth

/-- **Lines with the same lexemes are read alike**, and so are their faults. -/
theorem alike_readLines (fs : FileSystem) (hload : load.Placeless) (file file' directory : String)
    {lines lines' : List Source.Line} (hlines : List.Forall₂ Source.Line.Same lines lines')
    (h : Alike (Source.faulty lines || pending) (Source.faulty lines' || pending') r r') :
    Alike pending pending' (readLines fs load file directory r lines).1
        (readLines fs load file' directory r' lines').1 ∧
      Node.items (readLines fs load file directory r lines).2 =
        Node.items (readLines fs load file' directory r' lines').2 := by
  -- A fault that is still to be told is told on both sides before the end.
  induction hlines generalizing r r' with
  | nil => exact ⟨h, rfl⟩
  | @cons line line' rest rest' hline _ ih =>
    simp only [Source.faulty, List.any_cons, Bool.or_assoc] at h ih
    obtain ⟨hstatements, hitems⟩ := Resemblance.readStatements file file' hline trivial h fs
      (hload _ _) directory
    obtain ⟨hrest, hitems'⟩ := ih (Alike.reportFaults hstatements)
    simp only [readLines, Node.items_append]
    exact ⟨hrest, congrArg₂ (· ++ ·) hitems hitems'⟩

end Reading
end Assembler6502
