import Assembler6502.Proofs.Faithfulness
import Assembler6502.Proofs.History
import Assembler6502.Proofs.Readings

/-!
# Numbers tell nodes apart

The nodes of a program are numbered, each with a number of its own, and with a number that was given
out. A pass keeps the number of a statement or gives out new ones for what it puts in its place, so
the nodes are told apart behind every pass as they were before the first.

## Main definitions

* `Program.Numbered`: every node has a number of its own
* `Visit.Numbers`: a pass keeps the number of a statement or gives out new ones
* `Visit.Fills`: it puts a statement or new parts in the place of a statement

## Main results

* `Visit.Numbers.sweep`: such a pass leaves every node with a number of its own
* `Source.numbered_read`: the nodes of what is read have numbers of their own
-/

namespace Assembler6502

/-- Every node has a number of its own, and one that was given out. -/
structure Program.Numbered (p : Program) : Prop where
  nodup : p.root.numbers.Nodup
  lt : ∀ n ∈ p.root.numbers, n < p.size

theorem Program.Numbered.nodup_leaves {p : Program} (h : p.Numbered) :
    (p.leaves.map (·.1)).Nodup :=
  h.nodup.sublist p.root.sublist_numbers

/-- Numbers in the place of others: all are different, and each of them was there or is given out
between two bounds. -/
structure Renumbers (low high : Nat) (old new : List Nat) : Prop where
  le : low ≤ high
  nodup : new.Nodup
  mem : ∀ n ∈ new, n ∈ old ∨ low ≤ n ∧ n < high

namespace Renumbers

variable {low middle high : Nat} {old old' new new' : List Nat}

theorem single (id : Nat) (hle : low ≤ high) : Renumbers low high [id] [id] :=
  ⟨hle, List.pairwise_singleton _ id, fun _ hn => .inl hn⟩

theorem of_ascending (h : Ascending low high new) : Renumbers low high [] new :=
  ⟨h.le, h.nodup, fun n hn => .inr (h.bounds n hn)⟩

theorem fresh (h : Renumbers middle high old new) (hold : ∀ n ∈ old, low ≤ n ∧ n < middle)
    (hle : low ≤ middle) : Renumbers low high [] new := by
  refine ⟨Nat.le_trans hle h.le, h.nodup, fun n hn => .inr ?_⟩
  rcases h.mem n hn with hn | hn
  · exact ⟨(hold n hn).1, Nat.lt_of_lt_of_le (hold n hn).2 h.le⟩
  · exact ⟨Nat.le_trans hle hn.1, hn.2⟩

/-- What is renumbered part by part is renumbered: a number of the first part was there or is newer
than all others, and one of the second part was there elsewhere or is newer still. -/
theorem append (h : Renumbers low middle old new) (h' : Renumbers middle high old' new')
    (hold : (old ++ old').Nodup) (hlt : ∀ n ∈ old ++ old', n < low) :
    Renumbers low high (old ++ old') (new ++ new') := by
  have hle := h.le
  have hle' := h'.le
  simp only [List.mem_append] at hlt
  refine ⟨Nat.le_trans hle hle', List.nodup_append.mpr ⟨h.nodup, h'.nodup, ?_⟩, fun n hn => ?_⟩
  · rintro n hn m hm rfl
    -- A number in both parts is old in both, or it is new in one and out of range in the other.
    rcases h.mem n hn with hn | hn <;> rcases h'.mem n hm with hm | hm
    · exact (List.nodup_append.mp hold).2.2 n hn n hm rfl
    · have := hlt n (.inl hn)
      omega
    · have := hlt n (.inr hm)
      omega
    · omega
  · rw [List.mem_append]
    rcases List.mem_append.mp hn with hn | hn
    · rcases h.mem n hn with hn | hn
      · exact .inl (.inl hn)
      · exact .inr ⟨hn.1, Nat.lt_of_lt_of_le hn.2 hle'⟩
    · rcases h'.mem n hn with hn | hn
      · exact .inl (.inr hn)
      · exact .inr ⟨Nat.le_trans hle hn.1, hn.2⟩

theorem sequence {id : Nat} {children : List Node} (location : Location)
    (h : Renumbers low high [] (Node.numbersAll children)) (hid : id < low) :
    Renumbers low high [id] (Node.sequence id location children).numbers := by
  rw [Node.numbers, ← List.nil_append [id]]
  exact h.append (single id (Nat.le_refl high)) (List.pairwise_singleton _ id) fun n hn =>
    List.mem_singleton.mp hn ▸ hid

end Renumbers

/-! ## Walks -/

namespace Visit

variable {μ : Type} {visit : Visit μ}

/-- In the place of a statement there is a node with its number, and the nodes below have different
numbers that are given out for them. -/
structure Numbers (visit : Visit μ) : Prop where
  number : ∀ (s : Sweep μ) (id : Nat) (st : Statement), (visit s id st).2.number = id
  renumbers : ∀ (s : Sweep μ) (id : Nat) (st : Statement), id < s.size →
    Renumbers s.size (visit s id st).1.size [id] (visit s id st).2.numbers

theorem renumbers_leaf {s s' : Sweep μ} (id : Nat) (st : Statement) (hsize : s.size ≤ s'.size) :
    Renumbers s.size s'.size [id] (Node.leaf id st).numbers :=
  .single id hsize

/-- In the place of a statement there is a statement with its number, or a sequence with its number
and new parts. -/
def Fills (visit : Visit μ) : Prop :=
  ∀ (s : Sweep μ) (id : Nat) (st : Statement),
    (∃ st', (visit s id st).2 = .leaf id st' ∧ (visit s id st).1.size = s.size) ∨
      ∃ location parts,
        (visit s id st).2 = .sequence id location (Node.ofFragments s.size parts).1 ∧
        (visit s id st).1.size = (Node.ofFragments s.size parts).2

/-- New parts are numbered in order. -/
theorem Fills.numbers (h : visit.Fills) : visit.Numbers := by
  refine ⟨fun s id st => ?_, fun s id st hid => ?_⟩
  · rcases h s id st with ⟨st', hnode, -⟩ | ⟨location, parts, hnode, -⟩
    · rw [hnode, Node.number]
    · rw [hnode, Node.number]
  · rcases h s id st with ⟨st', hnode, hsize⟩ | ⟨location, parts, hnode, hsize⟩
    · rw [hnode]
      exact renumbers_leaf id st' (Nat.le_of_eq hsize.symm)
    · rw [hnode, hsize]
      exact .sequence location (.of_ascending (Node.ascending_ofFragments s.size parts)) hid

theorem InPlace.fills {binds : Prop} {F : Item → Fault → Prop} (h : visit.InPlace binds F) :
    visit.Fills := by
  intro s id st
  obtain ⟨st', heq⟩ := h.exists_leaf s id st
  exact .inl ⟨st', heq, (h.passes s id st).size⟩

mutual

/-- Along a walk every number is one of those that were there, or one that was given out on the
way. -/
theorem Numbers.traverse (hv : visit.Numbers) : ∀ (n : Node) (s : Sweep μ), n.numbers.Nodup →
    (∀ m ∈ n.numbers, m < s.size) →
      Renumbers s.size (n.traverse visit s).1.size n.numbers (n.traverse visit s).2.numbers
  | .leaf id st, s, _, hlt => by
    simp only [Node.traverse]
    exact hv.renumbers s id st (hlt id List.mem_cons_self)
  | .sequence id location children, s, hnodup, hlt => by
    rw [Node.numbers] at hnodup hlt
    have hchildren := Numbers.traverseAll hv children s (List.nodup_append.mp hnodup).1 fun m hm =>
      hlt m (List.mem_append_left _ hm)
    simp only [Node.traverse, Node.numbers]
    exact hchildren.append (.single id (Nat.le_refl _)) hnodup hlt

theorem Numbers.traverseAll (hv : visit.Numbers) : ∀ (ns : List Node) (s : Sweep μ),
    (Node.numbersAll ns).Nodup → (∀ m ∈ Node.numbersAll ns, m < s.size) →
      Renumbers s.size (Node.traverseAll visit s ns).1.size (Node.numbersAll ns)
        (Node.numbersAll (Node.traverseAll visit s ns).2)
  | [], s, _, _ => by
    simp only [Node.traverseAll, Node.numbersAll]
    exact .of_ascending (.nil (Nat.le_refl _))
  | n :: rest, s, hnodup, hlt => by
    rw [Node.numbersAll] at hnodup hlt
    have hfirst := Numbers.traverse hv n s (List.nodup_append.mp hnodup).1 fun m hm =>
      hlt m (List.mem_append_left _ hm)
    have hrest := Numbers.traverseAll hv rest (n.traverse visit s).1
      (List.nodup_append.mp hnodup).2.1 fun m hm =>
        Nat.lt_of_lt_of_le (hlt m (List.mem_append_right _ hm)) hfirst.le
    simp only [Node.traverseAll, Node.numbersAll]
    exact hfirst.append hrest hnodup hlt

end

theorem Numbers.number_traverseAll (hv : visit.Numbers) (ns : List Node) (s : Sweep μ) :
    (Node.traverseAll visit s ns).2.map Node.number = ns.map Node.number := by
  induction ns generalizing s with
  | nil => rfl
  | cons n rest ih =>
    simp only [Node.traverseAll, List.map_cons, ih]
    cases n with
    | leaf id st =>
      simp only [Node.traverse]
      rw [hv.number, Node.number]
    | sequence id location children => rfl

/-- **A pass that keeps numbers or gives out new ones** leaves every node with a number of its
own. -/
theorem Numbers.sweep (hv : visit.Numbers) {w : Workspace} (hw : w.program.Numbered) (memory : μ)
    (close : Context → Context) : (w.sweep memory visit close).1.program.Numbered := by
  have hroot := hv.traverse w.program.root (w.opening memory) hw.nodup hw.lt
  simp only [Program.root, Node.traverse] at hroot
  refine ⟨hroot.nodup, fun n hn => ?_⟩
  rcases hroot.mem n hn with hn | hn
  · exact Nat.lt_of_lt_of_le (hw.lt n hn) hroot.le
  · exact hn.2

end Visit

/-! ## Passes -/

namespace Pass

variable {μ : Type} {s : Sweep μ} {location : Location}

@[simp] theorem size_withMacros {change : MacroTable → MacroTable × Except MacroError Unit} :
    (withMacros s location change).size = s.size := by
  simp only [withMacros]
  split <;> rfl

theorem fills_defineMacros : Visit.Fills defineMacros := by
  intro s id st
  simp only [defineMacros]
  (repeat' split) <;> exact .inl ⟨_, rfl, by simp⟩

theorem fills_expandMacros : Visit.Fills expandMacros := by
  intro s id st
  simp only [expandMacros]
  split
  · split
    · exact .inr ⟨_, _, rfl, rfl⟩
    · exact .inl ⟨_, rfl, by simp⟩
  · exact .inl ⟨_, rfl, by simp⟩

/-- The opposite branch and the jump get new numbers, and so does what takes their places. -/
theorem renumbers_replaceBySkip {again : Option (Visit Unit)}
    (hagain : ∀ visit, again = some visit → visit.Numbers) {s : Sweep Unit} {id : Nat}
    (hid : id < s.size) (st : Statement) (branch inverse : Mnemonic) (target : Expr) :
    Renumbers s.size (replaceBySkip again s id st branch inverse target).1.size [id]
      (replaceBySkip again s id st branch inverse target).2.numbers := by
  simp only [replaceBySkip]
  generalize hs : Sweep.setChanged (s.warn st.location (.branchExtended branch inverse)) = s'
  have hsize : s'.size = s.size := by simp [← hs]
  rw [hsize]
  split
  · exact Visit.renumbers_leaf id _ (by simp)
  · rename_i visit
    -- Both statements have their numbers before either of them is visited.
    have hskip := (hagain visit rfl).renumbers { s' with size := s.size + 2 } s.size
      (inPlace st (skippingBranch inverse)) (by simp)
    generalize visit { s' with size := s.size + 2 } s.size (inPlace st (skippingBranch inverse)) =
      skip at hskip ⊢
    have hjump := (hagain visit rfl).renumbers skip.1 (s.size + 1) (inPlace st (jumpTo target))
      (Nat.lt_of_lt_of_le (Nat.lt_succ_self _) hskip.le)
    have hboth : Renumbers (s.size + 2) _ [s.size, s.size + 1] _ :=
      hskip.append hjump (by simp) (by simp)
    refine .sequence st.location ?_ hid
    simp only [Node.numbersAll, List.append_nil]
    exact hboth.fresh (by simp) (by simp)

theorem numbers_extendBranch {again : Option (Visit Unit)}
    (hagain : ∀ visit, again = some visit → visit.Numbers) :
    Visit.Numbers (extendBranch again) := by
  refine ⟨fun s id st => ?_, fun s id st hid => ?_⟩
  · simp only [extendBranch, replaceByJump, replaceBySkip]
    (repeat' split) <;> rfl
  · simp only [extendBranch]
    split
    · split
      · exact Visit.renumbers_leaf id _ (by simp)
      · split
        · exact Visit.renumbers_leaf id _ (by simp)
        · split
          · simp only [replaceByJump]
            exact Visit.renumbers_leaf id _ (by simp)
          · split
            · exact Visit.renumbers_leaf id _ (by simp)
            · exact renumbers_replaceBySkip hagain (s := (s.valueOf _ _).2) hid _ _ _ _
    · exact Visit.renumbers_leaf id _ (by simp)

theorem numbers_extendBranches : Visit.Numbers extendBranches := by
  refine numbers_extendBranch fun visit hvisit => ?_
  obtain rfl := Option.some.inj hvisit
  exact numbers_extendBranch (by simp)

end Pass

/-- **Every pass but the extension of branches** is a sweep that puts statements or new parts in the
place of statements, however the program is kept. -/
theorem Pass.Kind.exists_fills {kind : Pass.Kind} (hkind : kind ≠ .extendBranches)
    (d : Discovery) :
    ∃ (μ : Type) (memory : μ) (visit : Visit μ) (close : Context → Context) (f : μ → Discovery),
      visit.Fills ∧ ∀ (π : Type) [Sweepable π] (w : Workspace π), w.Clean →
        w.runPass kind d = ((w.sweep memory visit close).1, (w.sweep memory visit close).2.1,
          f (w.sweep memory visit close).2.2) := by
  have hrun {π : Type} {w : Workspace π} (hw : w.Clean) {a b : Workspace π × Bool × Discovery} :
      (if w.context.hasErrors = true then a else b) = b := if_neg (Bool.eq_false_iff.mp hw)
  cases kind with
  | defineMacros =>
    exact ⟨_, false, _, closeDefinition, fun _ => d, fills_defineMacros, fun _ _ _ hw => hrun hw⟩
  | expandMacros => exact ⟨_, (), _, id, fun _ => d, fills_expandMacros, fun _ _ _ hw => hrun hw⟩
  | initLabels =>
    exact ⟨_, d.nextRound, _, id, id, inPlace_initLabels.fills, fun _ _ _ hw => hrun hw⟩
  | checkCircularity =>
    exact ⟨_, true, _, id, fun _ => d, inPlace_checkCircularity.fills, fun _ _ _ hw => hrun hw⟩
  | checkExpressions =>
    exact ⟨_, (), _, id, fun _ => d, inPlace_checkExpressions.fills, fun _ _ _ hw => hrun hw⟩
  | easyModes => exact ⟨_, (), _, id, fun _ => d, inPlace_easyModes.fills, fun _ _ _ hw => hrun hw⟩
  | updateLabels =>
    exact ⟨_, (), _, id, fun _ => d, inPlace_updateLabels.fills, fun _ _ _ hw => hrun hw⟩
  | collapse => exact ⟨_, (), _, id, fun _ => d, inPlace_collapse.fills, fun _ _ _ hw => hrun hw⟩
  | extendBranches => exact absurd rfl hkind
  | normalizeModes =>
    exact ⟨_, (), _, id, fun _ => d, inPlace_normalizeModes.fills, fun _ _ _ hw => hrun hw⟩
  | emit =>
    exact ⟨_, ({} : Image), _, id, fun _ => d, inPlace_emit.fills, fun _ _ _ hw => hrun hw⟩

namespace Workspace

/-- **Behind every pass numbers tell nodes apart**, as they did before it. -/
theorem numbered_runPass {w : Workspace} (hw : w.program.Numbered) (kind : Pass.Kind)
    (d : Discovery) : (w.runPass kind d).1.program.Numbered := by
  refine kept_runPass (I := fun w : Workspace => w.program.Numbered) (fun hclean => ?_) hw
  by_cases hkind : kind = .extendBranches
  · rw [hkind, runPass_of_visit Pass.visit?_extendBranches hclean]
    exact Pass.numbers_extendBranches.sweep hw _ _
  · obtain ⟨μ, memory, visit, close, f, hfills, hrun⟩ := Pass.Kind.exists_fills hkind d
    rw [hrun Program w hclean]
    exact hfills.numbers.sweep hw _ _

end Workspace

namespace Assembly

/-- Behind so many stages numbers tell nodes apart, as they did before the first. -/
theorem numbered_behindStage {options : Options} {program : Program} {diagnostics : Diagnostics}
    (h : program.Numbered) (n : Nat) :
    (behindStage options program diagnostics n).program.Numbered :=
  Stage.kept_runStages (I := fun w : Workspace => w.program.Numbered) (fun _ _ h => h)
    (fun kind _ _ d hw => Workspace.numbered_runPass hw kind d) h

end Assembly

namespace Source

variable (cpu : Cpu) (fs : FileSystem) (stdin : Except FileError (List UInt8)) (inputs : List Input)

/-- **The nodes of what is read have numbers of their own.** -/
theorem numbered_read : (read cpu fs stdin inputs).program.Numbered := by
  have hchildren := (adds_read cpu fs stdin inputs).2.1
  generalize (read cpu fs stdin inputs).program = p at hchildren ⊢
  have hroot : p.root.numbers = Node.numbersAll p.children ++ [0] := by
    rw [Program.root, Node.numbers]
  constructor
  · rw [hroot]
    refine List.nodup_append.mpr ⟨hchildren.nodup, List.pairwise_singleton _ 0, ?_⟩
    rintro n hn m hm rfl
    rw [List.mem_singleton.mp hm] at hn
    exact absurd (hchildren.bounds 0 hn).1 (by simp)
  · intro n hn
    rcases List.mem_append.mp (hroot ▸ hn) with hn | hn
    · exact (hchildren.bounds n hn).2
    · exact List.mem_singleton.mp hn ▸ Nat.lt_of_lt_of_le Nat.zero_lt_one hchildren.le

end Source

/-- A statement with a new number in front of everything keeps the numbers of a program apart. -/
theorem Program.Numbered.placeAt {p : Program} (h : p.Numbered) (start : Nat) :
    (Assembly.placeAt start p).Numbered := by
  have hroot : (Assembly.placeAt start p).root.numbers = p.size :: p.root.numbers := by
    simp [Assembly.placeAt, Program.root, Node.numbers, Node.numbersAll]
  constructor
  · refine hroot ▸ List.nodup_cons.mpr ⟨fun hmem => ?_, h.nodup⟩
    exact absurd (h.lt _ hmem) (Nat.lt_irrefl _)
  · intro n hn
    rcases List.mem_cons.mp (hroot ▸ hn) with rfl | hn
    · exact Nat.lt_succ_self _
    · exact Nat.lt_succ_of_lt (h.lt n hn)

end Assembler6502
