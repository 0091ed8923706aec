import Assembler6502.Proofs.Indifference

/-!
# Nesting does not matter

Sequences show where statements came from, and nothing else. Two trees with the same statements in
the same order are assembled to the same, however the statements are nested and numbered. So the
statements of a file can be put in the place where the file is included.

## Main definitions

* `Program.inline`: the program with the statements of a sequence in the place of the sequence

## Main results

* `Assembly.ofProgram_eq_of_leaves`: nesting and numbers do not matter
-/

namespace Assembler6502

/-! ## Putting statements in the place of a sequence -/

namespace Node

mutual

/-- The node with the statements of the sequence that has a number in the place of the sequence. -/
def inline (number : Nat) : Node → List Node
  | leaf id st => [leaf id st]
  | sequence id location children =>
    if id = number then (leavesAll children).map fun l => leaf l.1 l.2
    else [sequence id location (inlineAll number children)]

/-- The same for a list of nodes. -/
def inlineAll (number : Nat) : List Node → List Node
  | [] => []
  | node :: rest => inline number node ++ inlineAll number rest

end

theorem leavesAll_map_leaf (ls : List (Nat × Statement)) :
    leavesAll (ls.map fun l => leaf l.1 l.2) = ls := by
  induction ls with
  | nil => rfl
  | cons l rest ih => simp [leavesAll, leaves, ih]

theorem numbersAll_map_leaf (ls : List (Nat × Statement)) :
    numbersAll (ls.map fun l => leaf l.1 l.2) = ls.map (·.1) := by
  induction ls with
  | nil => rfl
  | cons l rest ih => simp [numbersAll, numbers, ih]

mutual

theorem leavesAll_inline (number : Nat) : ∀ n : Node, leavesAll (n.inline number) = n.leaves
  | leaf id st => rfl
  | sequence id location children => by
    rw [inline]
    split
    · rw [leavesAll_map_leaf, leaves]
    · simp only [leavesAll, leaves, List.append_nil]
      exact leavesAll_inlineAll number children

theorem leavesAll_inlineAll (number : Nat) : ∀ ns : List Node,
    leavesAll (inlineAll number ns) = leavesAll ns
  | [] => rfl
  | n :: rest => by
    rw [inlineAll, leavesAll_append, leavesAll, leavesAll_inline number n,
      leavesAll_inlineAll number rest]

end

mutual

/-- No number is given out. -/
theorem sublist_numbersAll_inline (number : Nat) : ∀ n : Node,
    (numbersAll (n.inline number)).Sublist n.numbers
  | leaf id st => .refl _
  | sequence id location children => by
    rw [inline, numbers]
    split
    · rw [numbersAll_map_leaf]
      exact (sublist_numbersAll children).trans (List.sublist_append_left _ _)
    · simp only [numbersAll, numbers, List.append_nil]
      exact (sublist_numbersAll_inlineAll number children).append_right [id]

theorem sublist_numbersAll_inlineAll (number : Nat) : ∀ ns : List Node,
    (numbersAll (inlineAll number ns)).Sublist (numbersAll ns)
  | [] => .refl _
  | n :: rest => by
    rw [inlineAll, numbersAll_append, numbersAll]
    exact (sublist_numbersAll_inline number n).append (sublist_numbersAll_inlineAll number rest)

end

end Node

namespace Program

/-- The program with the statements of a sequence in the place of the sequence. -/
def inline (p : Program) (number : Nat) : Program :=
  { p with children := Node.inlineAll number p.children }

theorem leaves_inline (p : Program) (number : Nat) : (p.inline number).leaves = p.leaves :=
  Node.leavesAll_inlineAll number p.children

theorem Numbered.inline {p : Program} (h : p.Numbered) (number : Nat) :
    (p.inline number).Numbered := by
  have hsublist : (p.inline number).root.numbers.Sublist p.root.numbers := by
    simp only [root, Node.numbers]
    exact (Node.sublist_numbersAll_inlineAll number p.children).append_right [0]
  exact ⟨h.nodup.sublist hsublist, fun n hn => h.lt n (hsublist.subset hn)⟩

end Program

/-! ## Assembling -/

theorem Diagnostics.Like.eq {d d' : Diagnostics} (h : d.Like Eq d') : d = d' := by
  have hsame {α : Type} {xs ys : List (Located α)} (hxs : List.Forall₂ (Located.Like Eq) xs ys) :
      xs = ys := by
    refine List.forall₂_eq_eq_eq ▸ hxs.imp fun x y hxy => ?_
    obtain ⟨location, value⟩ := x
    exact congrArg₂ Located.mk hxy.location hxy.value
  obtain ⟨errors, warnings⟩ := d
  exact congrArg₂ Diagnostics.mk (hsame h.errors) (hsame h.warnings)

namespace Assembly

/-- Trees with the same statements in the same order are assembled to the same. -/
theorem ofProgram_congr (options : Options) (diagnostics : Diagnostics)
    {program program' : Program} (h : program.Numbered) (h' : program'.Numbered)
    (hleaves : program.leaves.map (·.2) = program'.leaves.map (·.2)) :
    ofProgram options program diagnostics = ofProgram options program' diagnostics := by
  have hprogram : program.root.Like Eq program'.root := by
    rw [← List.forall₂_eq_eq_eq, List.forall₂_map_left_iff, List.forall₂_map_right_iff] at hleaves
    exact hleaves.imp fun _ _ hst => ⟨congrArg _ hst, congrArg _ hst⟩
  have hdiagnostics : diagnostics.Like Eq diagnostics :=
    ⟨List.forall₂_same.mpr fun _ _ => ⟨rfl, rfl⟩, List.forall₂_same.mpr fun _ _ => ⟨rfl, rfl⟩⟩
  -- Places are alike only where they are the same, so what is alike in the end is the same.
  obtain ⟨himage, henvironment, hlike⟩ := like_ofProgram (R := Eq)
    ⟨rfl, fun hcall hplace => congrArg₂ _ hcall hplace⟩ options hprogram hdiagnostics
    h h'
  generalize ofProgram options program diagnostics = assembly at himage henvironment hlike ⊢
  obtain ⟨image, found, environment⟩ := assembly
  obtain rfl : image = _ := himage
  obtain rfl : environment = _ := henvironment
  obtain rfl : found = _ := hlike.eq
  rfl

/-- **Nesting does not matter.** Two trees with the same statements at the same places, in the same
order, are assembled to the same bytes, with the same counts, faults, warnings and environment,
however the statements are nested and numbered. In particular, the statements of a sequence, as an
included file is one, can be put in its place. -/
theorem ofProgram_eq_of_leaves (options : Options) (diagnostics : Diagnostics)
    {program program' : Program} (h : program.Numbered) (h' : program'.Numbered)
    (hleaves : program.leaves.map (·.2) = program'.leaves.map (·.2)) :
    ofProgram options program diagnostics = ofProgram options program' diagnostics ∧
      ∀ number, ofProgram options (program.inline number) diagnostics =
        ofProgram options program diagnostics := by
  refine ⟨ofProgram_congr options diagnostics h h' hleaves, fun number => ?_⟩
  exact ofProgram_congr options diagnostics (h.inline number) h (by rw [program.leaves_inline])

/-- A jump to itself, whose label is in one file and whose instruction is in a file inside it. -/
def nestedJump : Program :=
  .ofFragments [.sequence (.source "outer" 1 1) [
    .ofItem (.source "outer" 1 1) (.mark (.global "here")),
    .sequence (.source "outer" 2 1) [.ofItem (.source "inner" 1 1)
      (.instruction (Pass.jumpTo (.symbol (.global "here"))))]]]

/-- The same statements side by side, with other numbers. -/
def flatJump : Program where
  children := [.leaf 7 ⟨.source "outer" 1 1, .mark (.global "here")⟩,
    .leaf 3 ⟨.source "inner" 1 1, .instruction (Pass.jumpTo (.symbol (.global "here")))⟩]
  size := 9

theorem ofProgram_nestedJump :
    (ofProgram {} flatJump {}).image.bytes = #[0x4c, 0, 0] ∧
      ofProgram {} nestedJump {} = ofProgram {} flatJump {} ∧
      ∀ number, ofProgram {} (nestedJump.inline number) {} = ofProgram {} nestedJump {} := by
  have hnested : nestedJump.Numbered := ⟨by decide +kernel, by decide +kernel⟩
  have hflat : flatJump.Numbered := ⟨by decide +kernel, by decide +kernel⟩
  exact ⟨by decide +kernel, ofProgram_eq_of_leaves {} {} hnested hflat rfl⟩

end Assembly
end Assembler6502
