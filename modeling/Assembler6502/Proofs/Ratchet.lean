import Assembler6502.Proofs.Arena
import Assembler6502.Proofs.InternalFaults
import Assembler6502.Proofs.Standstill

/-!
# Encodings never go back

While labels find their places, an instruction whose mode is open may be put into the zero page, and
an instruction in the zero page may be made wide again. Nothing goes the other way, in whatever
round and whatever happens to labels and branches meanwhile, so an instruction changes twice at
most. How often instructions may still change is counted by the slack of a program: two for an open
mode, and one for a direct mode of the zero page. A run of the narrowing and widening that reports a
change takes some of the slack, and nothing gives it back: what is put in the place of a branch has
none. So as many runs report a change as there was slack to begin with, and the group runs out of
rounds only if that was a lot.

## Main definitions

* `OperandShape.Step`: how a pass changes the mode of an instruction that was open
* `Assembly.Climbs`: an instruction along the passes of a history
* `Program.slack`: how often the instructions of a program may still change

## Main results

* `Workspace.step_runPass`: one pass at an instruction that was open
* `Workspace.slack_runPass`: one pass never adds to the slack
* `Workspace.slack_collapse_lt`: a run that reports a change takes some of it
* `Workspace.iterate_within`: a group whose rounds pay for going on
* `Assembly.modes_never_go_back`: encodings never go back
-/

namespace Assembler6502

/-! ## Modes -/

namespace Addressing

/-- The mode is open. -/
def isOpen : Addressing → Bool
  | pending _ => true
  | resolved _ => false

/-- A direct mode of the zero page. -/
def isNarrow : Addressing → Bool
  | resolved .zeroPage | resolved .zeroPageX | resolved .zeroPageY => true
  | _ => false

/-- How often the mode may still change. -/
def slack (a : Addressing) : Nat :=
  2 * a.isOpen.toNat + a.isNarrow.toNat

theorem slack_zeroPage_lt (shape : OperandShape) : (resolved shape.zeroPage).slack < 2 := by
  cases shape <;> decide

theorem slack_absolute (shape : OperandShape) : (resolved shape.absolute).slack = 0 := by
  cases shape <;> rfl

theorem slack_widened {mode wide : Mode} (h : mode.widened? = some wide) :
    (resolved wide).slack < (resolved mode).slack := by
  cases mode <;> cases h <;> decide

end Addressing

namespace OperandShape

/-- The modes of an instruction that was open. -/
def Admits (shape : OperandShape) (a : Addressing) : Prop :=
  a = .pending shape ∨ a = .resolved shape.zeroPage ∨ a = .resolved shape.absolute

/-- How a pass changes the mode of an instruction that was open: it keeps it, or it is the narrowing
and widening and goes one step up, or it makes an open mode absolute. -/
inductive Step (shape : OperandShape) : Pass.Kind → Addressing → Addressing → Prop
  | same (kind : Pass.Kind) {a : Addressing} (ha : shape.Admits a) : Step shape kind a a
  | narrowed : Step shape .collapse (.pending shape) (.resolved shape.zeroPage)
  | widened : Step shape .collapse (.resolved shape.zeroPage) (.resolved shape.absolute)
  | normalized : Step shape .normalizeModes (.pending shape) (.resolved shape.absolute)

variable {shape : OperandShape} {kind : Pass.Kind} {a b : Addressing}

theorem Step.admits (h : shape.Step kind a b) : shape.Admits b := by
  cases h with
  | same _ ha => exact ha
  | narrowed => exact .inr (.inl rfl)
  | widened => exact .inr (.inr rfl)
  | normalized => exact .inr (.inr rfl)

theorem widened?_absolute (shape : OperandShape) : shape.absolute.widened? = none := by
  cases shape <;> rfl

/-- Among the modes of the zero page, the direct ones are made wide, and become absolute. -/
theorem eq_absolute_of_widened? {wide : Mode} (h : shape.zeroPage.widened? = some wide) :
    wide = shape.absolute := by
  cases shape <;> cases h <;> rfl

theorem Admits.ne_relative (h : shape.Admits a) : a ≠ .resolved .relative := by
  rintro rfl
  rcases h with h | h | h <;> cases shape <;> cases h

end OperandShape

/-! ## What the narrowing and widening does -/

namespace Instruction

variable {i j : Instruction}

theorem Resizes.slack_lt (h : i.Resizes j) : j.addressing.slack < i.addressing.slack := by
  cases h with
  | narrowed ha =>
    rw [ha]
    exact Addressing.slack_zeroPage_lt _
  | widened ha hwide =>
    rw [ha]
    exact Addressing.slack_widened hwide

/-- The instruction in another mode, which may be open. -/
def addressed (i : Instruction) (a : Addressing) : Instruction :=
  { i with addressing := a }

/-- An instruction that was open goes one step up. -/
theorem Resizes.step {shape : OperandShape} {a : Addressing} (ha : shape.Admits a)
    (h : (i.addressed a).Resizes j) : ∃ b, shape.Step .collapse a b ∧ j = i.addressed b := by
  cases h with
  | narrowed hopen =>
    obtain rfl : a = .pending _ := hopen
    rcases ha with ha | ha | ha
    · cases ha
      exact ⟨_, .narrowed, rfl⟩
    · cases ha
    · cases ha
  | widened hmode hwide =>
    -- Of the two modes of a shape only the narrow one can be widened.
    obtain rfl : a = .resolved _ := hmode
    rcases ha with ha | ha | ha
    · cases ha
    · cases ha
      rw [OperandShape.eq_absolute_of_widened? hwide]
      exact ⟨_, .widened, rfl⟩
    · cases ha
      rw [OperandShape.widened?_absolute] at hwide
      cases hwide

end Instruction

namespace Pass

variable {s : Sweep Unit} {id : Nat} {st : Statement}

theorem changed_operandValue (location : Location) (i : Instruction) :
    (operandValue s location i).2.changed = s.changed := by
  unfold operandValue
  split <;> rfl

theorem changed_resized? (location : Location) (i : Instruction) :
    (resized? s location i).2.changed = s.changed := by
  unfold resized?
  split
  · exact changed_operandValue location i
  · rfl

/-- **The narrowing and widening at a statement**: the statement stays and no change is reported, or
it is an instruction that goes on to its next mode. -/
theorem collapse_cases (s : Sweep Unit) (id : Nat) (st : Statement) :
    ((collapse s id st).2 = .leaf id st ∧ (collapse s id st).1.changed = s.changed) ∨
      ∃ i j, st.item = .instruction i ∧ i.Resizes j ∧
        (collapse s id st).2 = .leaf id (inPlace st j) := by
  unfold collapse
  split
  · rename_i i hitem
    have hchanged := changed_resized? (s := s) st.location i
    split
    · rename_i heq
      rw [heq] at hchanged
      exact .inl ⟨rfl, hchanged⟩
    · rename_i j _ heq
      exact .inr ⟨i, j, hitem, resizes_resized? (congrArg Prod.fst heq), rfl⟩
  · exact .inl ⟨rfl, rfl⟩

end Pass

/-! ## An instruction along the passes -/

/-- The passes behind those that settle what does not depend on labels. -/
def Pass.Kind.isLate : Pass.Kind → Bool
  | .updateLabels | .collapse | .extendBranches | .normalizeModes | .emit => true
  | _ => false

section Along

variable {s : Sweep Unit} {number : Nat} {location : Location} {i : Instruction}
  {shape : OperandShape} {a : Addressing}

/-- The node of an instruction in some mode. -/
def Node.ofInstruction (number : Nat) (location : Location) (i : Instruction) (a : Addressing) :
    Node :=
  .leaf number ⟨location, .instruction (i.addressed a)⟩

theorem Pass.step_collapse (ha : shape.Admits a) :
    ∃ b, shape.Step .collapse a b ∧
      (collapse s number ⟨location, .instruction (i.addressed a)⟩).2 =
        .ofInstruction number location i b := by
  rcases collapse_cases s number ⟨location, .instruction (i.addressed a)⟩ with
    ⟨hleaf, -⟩ | ⟨i', j, hitem, hresizes, hleaf⟩
  · exact ⟨a, .same _ ha, hleaf⟩
  · cases hitem
    obtain ⟨b, hstep, rfl⟩ := hresizes.step ha
    exact ⟨b, hstep, hleaf⟩

theorem Pass.step_extendBranches (ha : shape.Admits a) :
    (extendBranches s number ⟨location, .instruction (i.addressed a)⟩).2 =
      .ofInstruction number location i a := by
  have hbranch : (Item.instruction (i.addressed a)).branch? = none := by
    have htarget : (i.addressed a).branchTarget? = none := if_neg ha.ne_relative
    rw [Item.branch?, htarget, Option.map_none]
  rw [extendBranches, extendBranch_other hbranch]
  rfl

theorem Pass.step_normalizeModes (ha : shape.Admits a) :
    ∃ b, shape.Step .normalizeModes a b ∧
      (normalizeModes s number ⟨location, .instruction (i.addressed a)⟩).2 =
        .ofInstruction number location i b := by
  rcases ha with rfl | rfl | rfl
  · exact ⟨_, .normalized, rfl⟩
  · exact ⟨_, .same _ (.inr (.inl rfl)), rfl⟩
  · exact ⟨_, .same _ (.inr (.inr rfl)), rfl⟩

/-- **One pass at an instruction that was open** keeps its mode or goes one step up. -/
theorem Workspace.step_runPass {w : Workspace} {kind : Pass.Kind} {π : List Nat}
    (hkind : kind.isLate = true) (d : Discovery) (ha : shape.Admits a)
    (h : w.program.root.at? π = some (.ofInstruction number location i a)) :
    ∃ b, shape.Step kind a b ∧
      (w.runPass kind d).1.program.root.at? π = some (.ofInstruction number location i b) := by
  by_cases hclean : w.Clean
  · have he : ¬ w.context.hasErrors = true := Bool.eq_false_iff.mp hclean
    cases kind with
    | updateLabels =>
      refine ⟨a, .same _ ha, ?_⟩
      rw [runPass_of_visit Pass.visit?_updateLabels hclean, at?_sweep h]
      rfl
    | collapse =>
      obtain ⟨b, hstep, hnode⟩ := @Pass.step_collapse (w.stateAt () Pass.collapse π) number location
        i shape a ha
      refine ⟨b, hstep, ?_⟩
      rw [runPass_of_visit Pass.visit?_collapse hclean, at?_sweep h]
      exact congrArg some hnode
    | extendBranches =>
      refine ⟨a, .same _ ha, ?_⟩
      rw [runPass_of_visit Pass.visit?_extendBranches hclean, at?_sweep h]
      exact congrArg some (Pass.step_extendBranches ha)
    | normalizeModes =>
      obtain ⟨b, hstep, hnode⟩ := @Pass.step_normalizeModes (w.stateAt () Pass.normalizeModes π)
        number location i shape a ha
      refine ⟨b, hstep, ?_⟩
      rw [runPass_of_visit Pass.visit?_normalizeModes hclean, at?_sweep h]
      exact congrArg some hnode
    | emit =>
      refine ⟨a, .same _ ha, ?_⟩
      have hemit : (w.runPass .emit d).1 = (w.sweep ({} : Image) Pass.emit id).1 :=
        congrArg Prod.fst (if_neg he)
      rw [hemit, at?_sweep h]
      rfl
    | _ => cases hkind
  · -- Nothing happens behind a fault.
    have hfault : w.context.hasErrors = true := by simpa [Clean] using hclean
    refine ⟨a, .same _ ha, ?_⟩
    rw [runPass_of_fault hfault]
    exact h

/-- An instruction along the passes of a history: each of them finds it at its position in the mode
in which the one before has left it, and keeps the mode or goes one step up. -/
inductive Assembly.Climbs (π : List Nat) (number : Nat) (location : Location) (i : Instruction)
    (shape : OperandShape) : Addressing → List Stage.Entry → Prop
  | nil (a : Addressing) : Climbs π number location i shape a []
  | cons {entry : Stage.Entry} {rest : List Stage.Entry} {a b : Addressing}
      (hbefore : entry.before.program.root.at? π = some (.ofInstruction number location i a))
      (hstep : shape.Step entry.kind a b)
      (hafter : entry.after.program.root.at? π = some (.ofInstruction number location i b))
      (hrest : Climbs π number location i shape b rest) :
      Climbs π number location i shape a (entry :: rest)

theorem Stage.Traced.climbs {u w : Workspace} {entries : List Entry} {π : List Nat}
    (h : Traced u entries w) (hlate : ∀ entry ∈ entries, entry.kind.isLate = true)
    (ha : shape.Admits a) (hu : u.program.root.at? π = some (.ofInstruction number location i a)) :
    Assembly.Climbs π number location i shape a entries := by
  induction h generalizing a with
  | nil => exact .nil a
  | cons d hafter _ ih =>
    obtain ⟨hfirst, hrest⟩ := List.forall_mem_cons.mp hlate
    obtain ⟨b, hstep, hb⟩ := Workspace.step_runPass hfirst d ha hu
    rw [← hafter] at hb
    exact .cons hu hstep hb (ih hrest hstep.admits hb)
  | exhausted name _ ih => exact ih hlate ha hu

end Along

/-! ## Slack -/

/-- How often a statement may still change. -/
def Statement.slack (st : Statement) : Nat :=
  match st.item with
  | .instruction i => i.addressing.slack
  | _ => 0

/-- How often statements may still change. -/
def totalSlack : List (Nat × Statement) → Nat
  | [] => 0
  | l :: rest => l.2.slack + totalSlack rest

@[simp] theorem totalSlack_nil : totalSlack [] = 0 := rfl

@[simp] theorem totalSlack_cons (l : Nat × Statement) (rest : List (Nat × Statement)) :
    totalSlack (l :: rest) = l.2.slack + totalSlack rest := rfl

@[simp] theorem totalSlack_append (first second : List (Nat × Statement)) :
    totalSlack (first ++ second) = totalSlack first + totalSlack second := by
  induction first with
  | nil => simp
  | cons l rest ih => simp only [List.cons_append, totalSlack_cons, ih, Nat.add_assoc]

namespace Program

/-- How often the instructions of a program may still change. -/
def slack (p : Program) : Nat :=
  totalSlack p.leaves

/-- The number of instructions whose mode is open. -/
def openModes (p : Program) : Nat :=
  p.instructions.countP (·.addressing.isOpen)

/-- The number of instructions in a direct mode of the zero page. -/
def narrowModes (p : Program) : Nat :=
  p.instructions.countP (·.addressing.isNarrow)

/-- The slack is two for every open mode, and one for every direct mode of the zero page. -/
theorem slack_eq (p : Program) : p.slack = 2 * p.openModes + p.narrowModes := by
  rw [slack, openModes, narrowModes, instructions]
  induction p.leaves with
  | nil => rfl
  | cons l rest ih =>
    obtain ⟨number, location, item⟩ := l
    rw [totalSlack_cons, ih]
    cases item with
    | instruction i =>
      simp only [Statement.slack, Addressing.slack, List.filterMap_cons, List.countP_cons]
      cases i.addressing.isOpen <;> cases i.addressing.isNarrow <;> simp <;> omega
    | _ => simp [Statement.slack]

end Program

/-- The pass never adds to the slack of a statement. -/
def Visit.Tightens {μ : Type} (visit : Visit μ) : Prop :=
  ∀ s id st, totalSlack (visit s id st).2.leaves ≤ st.slack

namespace Pass

theorem slack_leaf (id : Nat) (st : Statement) : totalSlack (Node.leaf id st).leaves = st.slack :=
  Nat.add_zero _

theorem tightens_observe {μ : Type} (step : Sweep μ → Nat → Statement → Sweep μ) :
    Visit.Tightens (Visit.observe step) :=
  fun _ id st => Nat.le_of_eq (slack_leaf id st)

/-- The narrowing and widening takes some of the slack where it reports a change. -/
theorem slack_collapse (s : Sweep Unit) (id : Nat) (st : Statement) :
    totalSlack (collapse s id st).2.leaves ≤ st.slack ∧
      ((collapse s id st).1.changed = true → s.changed = true ∨
        totalSlack (collapse s id st).2.leaves < st.slack) := by
  rcases collapse_cases s id st with ⟨hleaf, hchanged⟩ | ⟨i, j, hitem, hresizes, hleaf⟩
  · rw [hleaf, hchanged, slack_leaf]
    exact ⟨Nat.le_refl _, .inl⟩
  · have hlt : totalSlack (collapse s id st).2.leaves < st.slack := by
      rw [hleaf, slack_leaf, Statement.slack, Statement.slack, hitem]
      exact hresizes.slack_lt
    exact ⟨Nat.le_of_lt hlt, fun _ => .inr hlt⟩

theorem tightens_normalizeModes : Visit.Tightens normalizeModes := by
  rintro s id ⟨location, item⟩
  cases item with
  | instruction i =>
    obtain ⟨mnemonic, addressing, operand⟩ := i
    cases addressing with
    | resolved mode => exact Nat.le_refl _
    | pending shape =>
      refine Nat.le_trans (Nat.le_of_eq (slack_leaf id _)) ?_
      simp only [Statement.slack, Instruction.inMode, Addressing.slack_absolute]
      exact Nat.zero_le _
  | _ => exact Nat.le_refl _

/-- What is put in the place of a branch has no slack: neither the jump nor the opposite branch is
in an open mode, or in one of the zero page. -/
theorem tightens_extendBranches : Visit.Tightens extendBranches := by
  intro s id st
  rcases extendBranches_cases s id st with
    ⟨-, heq⟩ | ⟨m, target, hb, ⟨-, heq⟩ | ⟨hfar, rfl | ⟨inverse, hinv⟩⟩⟩
  · rw [heq]
    exact Nat.le_of_eq (slack_leaf id st)
  · rw [heq]
    exact Nat.le_of_eq (slack_leaf id st)
  · rw [(extendBranches_always hb hfar).1]
    exact Nat.zero_le _
  · rw [(extendBranches_conditional hb hinv hfar).1]
    exact Nat.zero_le _

end Pass

namespace Workspace

variable {μ : Type} {w : Workspace} {memory : μ} {visit : Visit μ} {close : Context → Context}

/-- A walk takes from the slack what its visits take. -/
theorem slack_walk (hvisit : visit.Tightens) (l : List (Nat × Statement)) (s : Sweep μ) :
    totalSlack ((reached visit.step s l).flatMap fun x => (visit x.1 x.2.1 x.2.2).2.leaves) ≤
      totalSlack l := by
  induction l generalizing s with
  | nil => exact Nat.le_refl 0
  | cons a rest ih =>
    have hfirst := hvisit s a.1 a.2
    have hrest := ih (visit.step s a)
    rw [reached_cons, List.flatMap_cons, totalSlack_append, totalSlack_cons]
    exact Nat.add_le_add hfirst hrest

theorem slack_sweep (hvisit : visit.Tightens) :
    (w.sweep memory visit close).1.program.slack ≤ w.program.slack := by
  rw [Program.slack, leaves_sweep]
  exact slack_walk hvisit w.program.leaves (w.opening memory)

/-- **No pass adds to the slack.** -/
theorem slack_runPass {kind : Pass.Kind} (hkind : kind.isLate = true) (w : Workspace)
    (d : Discovery) : (w.runPass kind d).1.program.slack ≤ w.program.slack := by
  refine kept_runPass (I := fun v => v.program.slack ≤ w.program.slack) (fun hclean => ?_)
    (Nat.le_refl _)
  cases kind with
  | updateLabels =>
    rw [runPass_of_visit Pass.visit?_updateLabels hclean]
    exact slack_sweep (Pass.tightens_observe _)
  | collapse =>
    rw [runPass_of_visit Pass.visit?_collapse hclean]
    exact slack_sweep fun s id st => (Pass.slack_collapse s id st).1
  | extendBranches =>
    rw [runPass_of_visit Pass.visit?_extendBranches hclean]
    exact slack_sweep Pass.tightens_extendBranches
  | normalizeModes =>
    rw [runPass_of_visit Pass.visit?_normalizeModes hclean]
    exact slack_sweep Pass.tightens_normalizeModes
  | emit =>
    have hemit : (w.runPass .emit d).1 = (w.sweep ({} : Image) Pass.emit id).1 :=
      congrArg Prod.fst (if_neg (Bool.eq_false_iff.mp hclean))
    rw [hemit]
    exact slack_sweep (Pass.tightens_observe _)
  | _ => cases hkind

/-- Where the narrowing and widening reports a change, one of its visits has taken some of the
slack. -/
theorem slack_walk_lt (l : List (Nat × Statement)) (s : Sweep Unit)
    (h : (l.foldl (Visit.step Pass.collapse) s).changed = true) :
    s.changed = true ∨
      totalSlack ((reached (Visit.step Pass.collapse) s l).flatMap
        fun x => (Pass.collapse x.1 x.2.1 x.2.2).2.leaves) < totalSlack l := by
  induction l generalizing s with
  | nil => exact .inl h
  | cons a rest ih =>
    obtain ⟨hle, hlt⟩ := Pass.slack_collapse s a.1 a.2
    have hrest := slack_walk (fun s id st => (Pass.slack_collapse s id st).1) rest
      (Visit.step Pass.collapse s a)
    rw [reached_cons, List.flatMap_cons, totalSlack_append, totalSlack_cons]
    -- The change was reported at the first statement, or before it, or behind it.
    rcases ih _ h with hfirst | hbehind
    · rcases hlt hfirst with hs | hhere
      · exact .inl hs
      · exact .inr (Nat.add_lt_add_of_lt_of_le hhere hrest)
    · exact .inr (Nat.add_lt_add_of_le_of_lt hle hbehind)

/-- **A run that reports a change** takes some of the slack. -/
theorem slack_collapse_lt {d : Discovery} (h : (w.runPass .collapse d).2.1 = true) :
    (w.runPass .collapse d).1.program.slack < w.program.slack := by
  by_cases hclean : w.Clean
  · rw [runPass_of_visit Pass.visit?_collapse hclean] at h ⊢
    rw [changed_sweep] at h
    rw [Program.slack, leaves_sweep]
    rcases slack_walk_lt w.program.leaves (w.opening ()) h with hopening | hlt
    · cases hopening
    · exact hlt
  · have hfault : w.context.hasErrors = true := by simpa [Clean] using hclean
    rw [runPass_of_fault hfault] at h
    cases h

/-! ## Rounds -/

/-- **A group whose rounds pay for going on** does not run out of rounds, if what they pay with is
less than the number of rounds. -/
theorem iterate_within {I : Workspace → Prop} {φ : Workspace → Nat} {name : String} {round : Round}
    (hround : ∀ w m, I w → I (round w m).1 ∧ φ (round w m).1 ≤ φ w ∧
      ((round w m).2.1 = true → φ (round w m).1 < φ w)) (rounds : Nat) (changed : Bool)
    (w : Workspace) (m : List Stage.Memory) (hw : I w) (hφ : φ w < rounds) :
    I (iterate name round rounds changed w m).1 ∧
      φ (iterate name round rounds changed w m).1 ≤ φ w := by
  induction rounds generalizing changed w m with
  | zero => exact absurd hφ (Nat.not_lt_zero _)
  | succ rounds ih =>
    by_cases hclean : w.context.hasErrors = true
    · rw [iterate, if_pos hclean]
      exact ⟨hw, Nat.le_refl _⟩
    · rw [iterate_succ (Bool.eq_false_iff.mpr hclean)]
      obtain ⟨hkept, hle, hlt⟩ := hround w m hw
      split
      · exact ⟨hkept, hle⟩
      · -- The round has paid for the next one.
        rename_i hnext
        obtain ⟨-, hchanged⟩ :
            (round w m).1.context.hasErrors = false ∧ (round w m).2.1 = true := by
          simpa using hnext
        have hpaid := hlt hchanged
        obtain ⟨hlast, hrest⟩ := ih true (round w m).1 (round w m).2.2 hkept (by omega)
        exact ⟨hlast, Nat.le_trans hrest hle⟩

end Workspace

namespace Stage

/-- A run of the narrowing and widening that reports a change. -/
def Entry.resizes (entry : Entry) : Bool :=
  entry.kind = .collapse && (entry.before.runPass .collapse {}).2.1

theorem changed_collapse (w : Workspace) (d : Discovery) :
    (w.runPass .collapse d).1 = (w.runPass .collapse {}).1 ∧
      (w.runPass .collapse d).2.1 = (w.runPass .collapse {}).2.1 := by
  unfold Workspace.runPass
  split <;> exact ⟨rfl, rfl⟩

/-- **As many runs report a change as there is slack** to begin with. -/
theorem Traced.resizes_le {u w : Workspace} {entries : List Entry} (h : Traced u entries w)
    (hlate : ∀ entry ∈ entries, entry.kind.isLate = true) :
    entries.countP (·.resizes) + w.program.slack ≤ u.program.slack := by
  induction h with
  | nil => simp
  | @cons entry rest w d hafter _ ih =>
    obtain ⟨hfirst, hrest⟩ := List.forall_mem_cons.mp hlate
    have hle := ih hrest
    rw [List.countP_cons]
    -- A run that resizes takes from the slack, and no other run adds to it.
    split
    · rename_i hresizes
      obtain ⟨hkind, hchanged⟩ := Bool.and_eq_true_iff.mp hresizes
      have hlt := Workspace.slack_collapse_lt hchanged
      rw [hafter, of_decide_eq_true hkind, (changed_collapse _ d).1] at hle
      omega
    · have hslack := Workspace.slack_runPass hfirst entry.before d
      rw [hafter] at hle
      omega
  | exhausted name _ ih => exact ih hlate

/-! ## Running out of rounds -/

/-- The fault that the group that sizes instructions ran out of rounds. -/
def unsized : Fault :=
  .pass (.noConvergence "instruction selection 1")

/-- The faults that groups ran out of rounds, except for the one that sizes instructions. -/
def ElsewhereExhausted (fault : Fault) : Prop :=
  ∃ name, fault = .pass (.noConvergence name) ∧ fault ≠ unsized

variable {w : Workspace} {name : String}

theorem accounted_exhausted (hname : name ≠ "instruction selection 1")
    (h : w.context.Accounted ElsewhereExhausted) :
    (w.context.error .topLevel (.pass (.noConvergence name))).Accounted ElsewhereExhausted := by
  refine h.adds (.error (.inl ⟨name, rfl, fun heq => hname ?_⟩))
  cases heq
  rfl

/-- A group of one pass that has another name. -/
theorem accounted_repeated {kind : Pass.Kind} (hkind : kind ≠ .emit)
    (hname : name ≠ "instruction selection 1") (m : Memory)
    (h : w.context.Accounted ElsewhereExhausted) :
    ((fixpoint name [pass kind]).run w m).1.context.Accounted ElsewhereExhausted := by
  rw [run_fixpoint]
  refine Workspace.kept_iterate
    (A := fun (w : Workspace) _ => w.context.Accounted ElsewhereExhausted)
    (fun _ hw => ?_) (fun hw => accounted_exhausted hname hw) _ _ h
  rw [runAll_single.1, run_pass]
  exact Workspace.accounted_runPass hkind _ hw

theorem accounted_preparation {stage : Stage} (hstage : stage ∈ preparation)
    (h : w.context.Accounted ElsewhereExhausted) :
    (stage.go w).1.context.Accounted ElsewhereExhausted := by
  have hpass (kind : Pass.Kind) (hkind : kind ≠ .emit) :
      ((pass kind).run w .fresh).1.context.Accounted ElsewhereExhausted := by
    rw [run_pass]
    exact Workspace.accounted_runPass hkind _ h
  rw [fst_go]
  simp only [preparation, List.mem_cons, List.not_mem_nil, or_false] at hstage
  rcases hstage with rfl | rfl | rfl | rfl | rfl | rfl
  · exact hpass _ (by decide)
  · exact accounted_repeated (by decide) (by decide) _ h
  · exact accounted_repeated (by decide) (by decide) _ h
  · exact hpass _ (by decide)
  · exact hpass _ (by decide)
  · exact hpass _ (by decide)

/-- The group that sizes instructions has not run out of rounds, and will not: there is less slack
than it has rounds. -/
structure Sizable (w : Workspace) : Prop where
  accounted : w.context.Accounted ElsewhereExhausted
  slack : w.program.slack < maxRounds

theorem Sizable.runPass (h : Sizable w) (kind : Pass.Kind) (hlate : kind.isLate = true)
    (hkind : kind ≠ .emit) (d : Discovery) : Sizable (w.runPass kind d).1 :=
  ⟨Workspace.accounted_runPass hkind d h.accounted,
    Nat.lt_of_le_of_lt (Workspace.slack_runPass hlate w d) h.slack⟩

theorem slack_run (stage : Stage) (hlate : ∀ kind ∈ stage.kinds, kind.isLate = true)
    (w : Workspace) (m : Memory) : (stage.run w m).1.program.slack ≤ w.program.slack := by
  have hentries := (traced_history stage w m).resizes_le fun entry hentry =>
    hlate entry.kind (kind_mem_kinds stage w m entry hentry)
  omega

theorem Sizable.placement (h : Sizable w) (m : Memory) : Sizable (placement.run w m).1 :=
  ⟨accounted_repeated (by decide) (by decide) m h.accounted,
    Nat.lt_of_le_of_lt (slack_run Stage.placement (by decide) w m) h.slack⟩

/-- **Sizing does not run out of rounds** where there is less slack than rounds, since every round
but the last one takes some of it. -/
theorem Sizable.sizing (h : Sizable w) (m : Memory) : Sizable (sizing.run w m).1 := by
  rw [Stage.sizing, run_fixpoint]
  refine (Workspace.iterate_within (φ := fun w => w.program.slack) (fun w ms hw => ?_) _ _ _ _ h
    h.slack).1
  rw [runAll_pair.1, runAll_pair.2, run_pass, changed_run_pass]
  have hplaced := hw.placement (ms.headD .fresh)
  have hslack := slack_run Stage.placement (by decide) w (ms.headD .fresh)
  refine ⟨hplaced.runPass .collapse rfl (by decide) _, ?_, fun hchanged => ?_⟩
  · exact Nat.le_trans (Workspace.slack_runPass rfl _ _) hslack
  · exact Nat.lt_of_lt_of_le (Workspace.slack_collapse_lt hchanged) hslack

theorem Sizable.selection (h : Sizable w) (extend : Bool) (m : Memory) :
    Sizable ((selection extend).run w m).1 := by
  cases extend with
  | false => exact h.sizing m
  | true =>
    rw [Stage.selection, if_pos rfl, run_fixpoint]
    refine Workspace.kept_iterate (A := fun w _ => Sizable w) (fun _ hw => ?_)
      (fun hw => ⟨accounted_exhausted (by decide) hw.accounted, hw.slack⟩) _ _ h
    rw [runAll_pair.1, run_pass]
    exact (hw.sizing _).runPass .extendBranches rfl (by decide) _

end Stage

namespace Assembly

variable {options : Options} {program : Program} {diagnostics : Diagnostics}

theorem behindStage_six : behindStage options program diagnostics 6 =
    runStages Stage.preparation (start options program diagnostics) := rfl

theorem finished_eq_selection : finished options program diagnostics =
    runStages [Stage.selection options.branchExtend, .pass .normalizeModes, .pass .updateLabels]
      (behindStage options program diagnostics 6) := by
  rw [finished, Stage.pipeline, runStages_append, behindStage_six]

theorem accounted_prepared (h : diagnostics.hasErrors = false) :
    (behindStage options program diagnostics 6).context.Accounted Stage.ElsewhereExhausted := by
  have hstart : (start options program diagnostics).context.Accounted Stage.ElsewhereExhausted := by
    intro fault hfault
    have hnone : diagnostics.errors = [] := by simpa [Diagnostics.hasErrors] using h
    rw [show (start options program diagnostics).context.diagnostics.errors = [] from hnone]
      at hfault
    cases hfault
  rw [behindStage_six, runStages]
  exact (foldl_invariant (P := fun w : Workspace => w.context.Accounted Stage.ElsewhereExhausted)
    hstart fun x hx hw => Stage.accounted_preparation (mem_of_mem_reached hx) hw).1

/-- **Sizing runs out of rounds only if there is a lot of slack.** -/
theorem slack_of_unsized {fault : Located Fault}
    (hfault : fault ∈ (ofProgram options program diagnostics).diagnostics.errors)
    (hvalue : fault.value = Stage.unsized) :
    fault ∈ diagnostics.errors ∨
      Stage.maxRounds ≤ (behindStage options program diagnostics 6).program.slack := by
  cases hclean : diagnostics.hasErrors with
  | true =>
    rw [ofProgram_of_fault hclean] at hfault
    exact .inl hfault
  | false =>
    refine .inr (Nat.le_of_not_lt fun hslack => ?_)
    -- With so little slack, no stage complains that sizing has run out of rounds.
    have hprepared : Stage.Sizable (behindStage options program diagnostics 6) :=
      ⟨accounted_prepared hclean, hslack⟩
    have hfinished : Stage.Sizable (finished options program diagnostics) := by
      rw [finished_eq_selection]
      have hselected := hprepared.selection options.branchExtend .fresh
      have hnormalized := hselected.runPass .normalizeModes rfl (by decide) {}
      exact hnormalized.runPass .updateLabels rfl (by decide) {}
    rcases accounted_emit hfinished.accounted fault hfault with ⟨name, -, hne⟩ | hordinary
    · exact hne hvalue
    · rw [hvalue] at hordinary
      exact hordinary

theorem isLate_entries : ∀ entry ∈ entries options program diagnostics 6,
    entry.kind.isLate = true := by
  have hkinds : ∀ kind ∈ Stage.kindsAll ((Stage.complete options.branchExtend).drop 6),
      kind.isLate = true := by
    cases options.branchExtend <;> decide
  intro entry hentry
  exact hkinds entry.kind (Stage.kind_mem_kindsAll _ _ _ entry hentry)

/-- Sizes change from the selection of encodings on. -/
theorem countP_resizes : (entries options program diagnostics 0).countP (·.resizes) =
    (entries options program diagnostics 6).countP (·.resizes) := by
  have hsplit : (Stage.complete options.branchExtend).drop 0 =
      Stage.preparation ++ (Stage.complete options.branchExtend).drop 6 := rfl
  have hkinds : ∀ kind ∈ Stage.kindsAll Stage.preparation, kind ≠ .collapse := by decide
  have hnone : (Stage.historyAll Stage.preparation
      (start options program diagnostics) []).countP (·.resizes) = 0 := by
    refine List.countP_eq_zero.mpr fun entry hentry hresizes => ?_
    exact hkinds _ (Stage.kind_mem_kindsAll _ _ _ entry hentry)
      (of_decide_eq_true (Bool.and_eq_true_iff.mp hresizes).1)
  rw [entries, hsplit, Stage.historyAll_append, List.countP_append]
  exact (congrArg (· + _) hnone).trans (Nat.zero_add _)

/-- **Encodings never go back.** Let a program have come to the selection of encodings, with
branches extended or not. An instruction whose mode is open there stays where it is, and each pass
that follows keeps its mode, or is the narrowing and widening and puts an open mode into the zero
page, or a mode of the zero page back to the absolute one, or makes an open mode absolute at last.
So not more runs of the narrowing and widening report a change than twice the open modes and once
the direct modes of the zero page, over the whole assembly; and that instructions do not find their
sizes within the rounds that are allowed is reported only if that number is not less than them. -/
theorem modes_never_go_back (options : Options) (program : Program) (diagnostics : Diagnostics) :
    let chosen := (behindStage options program diagnostics 6).program
    let bound := 2 * chosen.openModes + chosen.narrowModes
    (∀ π number location i shape, i.addressing = .pending shape →
        chosen.root.at? π = some (.leaf number ⟨location, .instruction i⟩) →
        Climbs π number location i shape (.pending shape) (entries options program diagnostics 6)) ∧
      (entries options program diagnostics 0).countP (·.resizes) ≤ bound ∧
      ∀ fault ∈ (ofProgram options program diagnostics).diagnostics.errors,
        fault.value = .pass (.noConvergence "instruction selection 1") →
          fault ∈ diagnostics.errors ∨ 100 ≤ bound := by
  intro chosen bound
  have htraced := Stage.traced_historyAll ((Stage.complete options.branchExtend).drop 6)
    (behindStage options program diagnostics 6) []
  have hbound : bound = chosen.slack := (Program.slack_eq chosen).symm
  refine ⟨fun π number location i shape hopen hi => ?_, ?_, fun fault hfault hvalue => ?_⟩
  · refine htraced.climbs isLate_entries (.inl rfl) ?_
    rw [Node.ofInstruction, Instruction.addressed, ← hopen]
    exact hi
  · have hresizes := htraced.resizes_le isLate_entries
    rw [countP_resizes, hbound]
    exact Nat.le_trans (Nat.le_add_right _ _) hresizes
  · rw [hbound]
    exact slack_of_unsized hfault hvalue

/-- A load through a label that lies in the zero page until the branch before it is extended. -/
def growing : Program :=
  ⟨[.leaf 1 ⟨.topLevel, .setPc (.constant 112)⟩,
    .leaf 2 ⟨.topLevel, .instruction ⟨.lda, .pending .memory, some (.symbol (.global "near"))⟩⟩,
    .leaf 3 ⟨.topLevel, .instruction ⟨.beq, .pending .memory, some (.symbol (.global "far"))⟩⟩,
    .leaf 4 ⟨.topLevel, .label (.global "base") .programCounter⟩,
    .leaf 5 ⟨.topLevel, .label (.global "near")
      (.chain (.symbol (.global "base")) [(.add, .constant 137)])⟩,
    .leaf 6 ⟨.topLevel, .label (.global "far")
      (.chain (.symbol (.global "base")) [(.add, .constant 300)])⟩], 7⟩

theorem modes_never_go_back_growing :
    (behindStage {} growing {} 6).program.openModes = 1 ∧
      (behindStage {} growing {} 6).program.narrowModes = 0 ∧
      (entries {} growing {} 0).countP (·.resizes) = 2 ∧
      Climbs [1] 2 .topLevel ⟨.lda, .pending .memory, some (.symbol (.global "near"))⟩ .memory
        (.pending .memory) (entries {} growing {} 6) := by
  have hload : (behindStage {} growing {} 6).program.root.at? [1] = some (.leaf 2
      ⟨.topLevel, .instruction ⟨.lda, .pending .memory, some (.symbol (.global "near"))⟩⟩) := by
    rfl
  obtain ⟨hclimbs, -, -⟩ := modes_never_go_back {} growing {}
  refine ⟨by decide +kernel, by decide +kernel, by decide +kernel, ?_⟩
  exact hclimbs [1] 2 .topLevel _ .memory rfl hload

end Assembly
end Assembler6502
