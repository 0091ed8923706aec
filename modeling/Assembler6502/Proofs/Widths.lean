import Assembler6502.Proofs.Convergence
import Assembler6502.Proofs.History
import Assembler6502.Proofs.Reports

/-!
# Widths that fit

Instructions find their sizes in a group that ends with a pass over them that changes nothing. That
pass asks for the value of every operand whose width is open or could grow, at the place where the
instruction stands and with the labels as they are, and it would have narrowed or widened what does
not fit. The extension of branches around the group ends with a run that changes nothing either. So
when open modes are made absolute, narrow operands are small, and what is left open is large or
has no narrow mode.

## Main definitions

* `Instruction.operandValue`: the value of an operand, where it stands
* `Instruction.WidthFits`: the width of an instruction is the one that a value asks for

## Main results

* `Pass.widthFits_of_quiet`: an instruction that is left alone has the width that its operand asks
  for
* `Stage.sized_selection`: when encodings are selected nothing is left to narrow or widen
* `Assembly.widths_fit`: the widths that are selected fit the operands
-/

namespace Assembler6502

/-! ## Instructions that are left alone -/

namespace Instruction

/-- The value of the operand; an operand that is missing counts as zero. -/
def operandValue (ν : Valuation) (i : Instruction) : Except EvalError Value :=
  i.operand.elim (.ok 0) (Expr.evaluate ν)

/-- The width of the instruction is the one that a value asks for: in a direct mode of the zero page
that could be widened the value is small, and while the mode is open it is large or there is no
mode of the zero page. -/
structure WidthFits (cpu : Cpu) (v : Value) (i : Instruction) : Prop where
  narrow : ∀ mode wide, i.addressing = .resolved mode → mode.widened? = some wide →
    cpu.hasMode i.mnemonic wide = true → v < zeroPageEnd
  undecided : ∀ shape, i.addressing = .pending shape →
    zeroPageEnd ≤ v ∨ cpu.hasMode i.mnemonic shape.zeroPage = false

theorem widthFits_of_resized {cpu : Cpu} {v : Value} {i : Instruction}
    (hnarrowed : i.narrowed? cpu v = none) (hwidened : i.widened? cpu v = none) :
    i.WidthFits cpu v := by
  constructor
  · intro mode wide hmode hwide hhas
    simp only [widened?, hmode, hwide, hhas, Bool.and_true] at hwidened
    simpa using hwidened
  · intro shape hshape
    simp only [narrowed?, hshape] at hnarrowed
    split at hnarrowed
    · cases hnarrowed
    · rename_i hif
      by_cases hhas : cpu.hasMode i.mnemonic shape.zeroPage = true
      · exact .inl (by simpa [hhas] using hif)
      · exact .inr (by simpa using hhas)

end Instruction

namespace Pass

theorem operandValue_eq {μ : Type} {s : Sweep μ} {location : Location} {i : Instruction}
    (h : (operandValue s location i).2.context.hasErrors = false) :
    i.operandValue s.context.env.valuation = .ok (operandValue s location i).1 := by
  cases hop : i.operand with
  | none => simp [operandValue, Instruction.operandValue, hop]
  | some e =>
    simp only [operandValue, Instruction.operandValue, hop, Option.elim_some] at h ⊢
    obtain ⟨-, v, hv, hvo⟩ := Sweep.evaluate_of_valueOf h
    rw [hvo]
    exact hv

/-- **An instruction that is left alone** without a fault has an operand with a value, if its width
depends on one, and the width that the value asks for. -/
theorem widthFits_of_quiet {s : Sweep Unit} {l : Nat × Statement} {i : Instruction}
    (h : (Visit.step collapse s l).Quiet) (hitem : l.2.item = .instruction i)
    (hresizable : isResizable i = true) :
    ∃ v, i.operandValue s.context.env.valuation = .ok v ∧ i.WidthFits s.context.cpu v := by
  obtain ⟨hclean, hunchanged⟩ := h
  simp only [Visit.step, collapse, hitem] at hclean hunchanged
  cases hr : resized? s l.2.location i with
  | mk resized s' =>
    cases resized with
    -- An instruction of another size counts as a change.
    | some j => simp [hr] at hunchanged
    | none =>
      simp only [hr] at hclean
      have hs' := (Context.followable_of_follow hclean).1
      simp only [resized?, hresizable, if_true, Prod.mk.injEq, Option.or_eq_none_iff] at hr
      obtain ⟨⟨hnarrowed, hwidened⟩, rfl⟩ := hr
      refine ⟨_, operandValue_eq hs', ?_⟩
      have hcpu : (operandValue s l.2.location i).2.context.cpu = s.context.cpu :=
        (reports_operandValue (P := fun _ => True) fun _ _ _ _ => trivial).cpu
      rw [hcpu] at hnarrowed hwidened
      exact Instruction.widthFits_of_resized hnarrowed hwidened

end Pass

/-! ## When encodings are selected -/

/-- **When encodings are selected**, labels are placed and nothing is left to narrow or widen. -/
theorem Stage.sized_selection {extend : Bool} {w : Workspace} {m : Memory}
    (h : ((selection extend).run w m).1.Clean) :
    ((selection extend).run w m).1.Placed ∧
      (((selection extend).run w m).1.closing () Pass.collapse).Quiet := by
  cases extend with
  | false => exact sized_sizing h
  | true =>
    exact (placed_group (P := fun w => w.Placed ∧ (w.closing () Pass.collapse).Quiet) rfl
      (fun _ h => h.1) (fun _ _ => sized_sizing) (fun _ => Pass.observes_extendBranches) h).1

/-- Where nothing is left to narrow or widen, widths fit on the layout. -/
theorem Workspace.Placed.widthFits {w : Workspace} (h : w.Placed)
    (hq : (w.closing () Pass.collapse).Quiet) :
    ∀ y ∈ w.context.env.layout w.program.leaves, ∀ i, y.2.2.item = .instruction i →
      Pass.isResizable i = true →
        ∃ v, i.operandValue y.1.valuation = .ok v ∧ i.WidthFits w.context.cpu v := by
  intro y hy i hitem hresizable
  -- The pass that changes nothing goes along the layout, so it comes to the instruction there.
  have htracks : w.Tracks () Pass.collapse := fun x hx => by
    rw [Pass.observes_collapse hq x hx]
    rfl
  rw [← h.rested.env_restart] at hy
  obtain ⟨x, hx, hcontext, hyx⟩ := htracks.layout.2.2 y hy
  have hquiet := forall_reached_of_foldl (f := Visit.step Pass.collapse)
    (fun _ _ hs => (Pass.collapse_of_quiet hs).1) hq x hx
  rw [hyx] at hitem
  have hfits := Pass.widthFits_of_quiet hquiet hitem hresizable
  rw [hcontext] at hfits
  simpa [Context.mapEnv, Context.cpu_restart] using hfits

namespace Assembly

theorem cpu_selected (options : Options) (program : Program) (diagnostics : Diagnostics) :
    (selected options program diagnostics).context.cpu = options.cpu := by
  have hstages : selected options program diagnostics =
      runStages (Stage.preparation ++ [Stage.selection options.branchExtend])
        (start options program diagnostics) := by
    rw [runStages_append]
    rfl
  have hkinds : ∀ kind ∈ Stage.kindsAll
      (Stage.preparation ++ [Stage.selection options.branchExtend]), kind ≠ .emit := by
    cases options.branchExtend <;> decide
  rw [hstages]
  exact Stage.kept_runStages (I := fun w : Workspace => w.context.cpu = options.cpu)
    (fun _ _ h => h)
    (fun kind hkind w d hw => (Workspace.cpu_runPass (hkinds kind hkind) d).trans hw) rfl

/-- **Widths fit the operands.** If no fault was found when open modes are about to be made
absolute, then at every instruction, where the layout has it and with the labels as they are: in a
direct mode of the zero page the operand has a value, which is small if the processor has the wide
mode; and while the mode is open the operand has a value, which is large unless the processor has no
mode of the zero page. -/
theorem widths_fit (options : Options) (program : Program) (diagnostics : Diagnostics)
    (h : (selected options program diagnostics).Clean) :
    ∀ y ∈ (selected options program diagnostics).context.env.layout
        (selected options program diagnostics).program.leaves,
      ∀ i, y.2.2.item = .instruction i →
        (∀ mode wide, i.addressing = .resolved mode → mode.widened? = some wide →
          ∃ v, i.operandValue y.1.valuation = .ok v ∧
            (options.cpu.hasMode i.mnemonic wide = true → v < 0x100)) ∧
        ∀ shape, i.addressing = .pending shape →
          ∃ v, i.operandValue y.1.valuation = .ok v ∧
            (0x100 ≤ v ∨ options.cpu.hasMode i.mnemonic shape.zeroPage = false) := by
  obtain ⟨hplaced, hquiet⟩ := Stage.sized_selection h
  have hfits := hplaced.widthFits hquiet
  intro y hy i hitem
  rw [← cpu_selected options program diagnostics]
  refine ⟨fun mode wide hmode hwide => ?_, fun shape hshape => ?_⟩
  · obtain ⟨v, hv, hwidth⟩ := hfits y hy i hitem (by simp [Pass.isResizable, hmode, hwide])
    exact ⟨v, hv, hwidth.narrow mode wide hmode hwide⟩
  · obtain ⟨v, hv, hwidth⟩ := hfits y hy i hitem (by simp [Pass.isResizable, hshape])
    exact ⟨v, hv, hwidth.undecided shape hshape⟩

/-- A load from a label that leaves the zero page when the branch before it is extended, a store
into the zero page, and a comparison that is never narrowed. -/
def pushedLabel : Program :=
  ⟨[.leaf 1 ⟨.topLevel, .setPc (.constant 0xf0)⟩,
    .leaf 2 ⟨.topLevel, .instruction (.pending .bne .memory (.symbol (.global "far")))⟩,
    .leaf 3 ⟨.topLevel, .instruction (.pending .lda .memory (.symbol (.global "near")))⟩,
    .leaf 4 ⟨.topLevel, .setPc (.pcPlus 10)⟩,
    .leaf 5 ⟨.topLevel, .label (.global "near") .programCounter⟩,
    .leaf 6 ⟨.topLevel, .instruction (.pending .sta .memoryX (.constant 0x20))⟩,
    .leaf 7 ⟨.topLevel, .instruction (.pending .cmp .memory (.symbol (.global "far")))⟩,
    .leaf 8 ⟨.topLevel, .setPc (.constant 0x300)⟩,
    .leaf 9 ⟨.topLevel, .label (.global "far") .programCounter⟩], 10⟩

theorem widths_fit_pushedLabel :
    (selected {} pushedLabel {}).Clean ∧
      ((selected {} pushedLabel {}).context.env.layout
        (selected {} pushedLabel {}).program.leaves).filterMap (fun y =>
          match y.2.2.item with
          | .instruction i => some (y.1.pc, i.mnemonic, i.addressing)
          | _ => none) =
        [(0xf0, .beq, .resolved .relative), (0xf2, .jmp, .resolved .absolute),
          (0xf5, .lda, .resolved .absolute), (0x102, .sta, .resolved .zeroPageX),
          (0x104, .cmp, .pending .memory)] ∧
      ∀ y ∈ (selected {} pushedLabel {}).context.env.layout
          (selected {} pushedLabel {}).program.leaves,
        ∀ i, y.2.2.item = .instruction i →
          (i.addressing = .resolved .zeroPageX →
            ∃ v, i.operandValue y.1.valuation = .ok v ∧
              (Cpu.mos6502.hasMode i.mnemonic .absoluteX = true → v < 0x100)) ∧
          (i.addressing = .pending .memory →
            ∃ v, i.operandValue y.1.valuation = .ok v ∧
              (0x100 ≤ v ∨ Cpu.mos6502.hasMode i.mnemonic .zeroPage = false)) := by
  have hclean : (selected {} pushedLabel {}).Clean := by
    unfold Workspace.Clean
    decide +kernel
  refine ⟨hclean, by decide +kernel, fun y hy i hitem => ?_⟩
  obtain ⟨hnarrow, hopen⟩ := widths_fit {} pushedLabel {} hclean y hy i hitem
  exact ⟨fun hmode => hnarrow _ _ hmode rfl, hopen _⟩

end Assembly
end Assembler6502
