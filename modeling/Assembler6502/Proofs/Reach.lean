import Assembler6502.Proofs.Expansion
import Assembler6502.Proofs.KeptBranches
import Assembler6502.Proofs.Tours

/-!
# Branches within reach

The extension of branches ends with a run that changes nothing. A branch that can be replaced and
was not is within reach then, and every branch of a program that was read can be replaced. The
passes behind the extension keep the layout and make no branch, and the image is written along the
layout until the first fault. So a branch is never the first thing that does not fit.

## Main definitions

* `Environment.Reaching`: every branch on the layout of a program reaches its target
* `Context.BlamesNoBranch`: no fault is about a branch that does not reach its target

## Main results

* `Workspace.Placed.reaching`: a program in which the extension finds nothing to do
* `Workspace.env_of_clean_visit`: the image is written along the layout until the first fault
* `Pass.blamesNoBranch_emit`: writing a branch that reaches its target
* `Assembly.branch_never_first_fault`: whatever is found wrong first is no branch
-/

namespace Assembler6502

/-! ## Layouts -/

namespace Environment

/-- Every branch with a displacement of one byte has a target, and reaches it from where it stands
on the layout. -/
def Reaching (env : Environment) (leaves : List (Nat × Statement)) : Prop :=
  ∀ y ∈ env.layout leaves, ∀ i, y.2.2.item = .instruction i →
    i.addressing = .resolved .relative →
      ∃ target v, i.operand = some target ∧ target.evaluate y.1.valuation = .ok v ∧
        fitsByte (displacement v y.1.pc) = true

variable {ν : Nesting} {env e f : Environment} {leaves : List (Nat × Statement)}

theorem Reaching.congr (h : Agrees ν e f) (hν : Nested ν e leaves) (hr : e.Reaching leaves) :
    f.Reaching leaves := by
  intro y hy i hitem hmode
  obtain ⟨x, hx, hxy, heq⟩ := (h.layout hν).2.2 y hy
  obtain ⟨target, v, htarget, hv, hfits⟩ := hr x hx i (heq ▸ hitem) hmode
  have hvaluation := hxy.valuation (hν x hx)
  refine ⟨target, v, htarget, by rw [hvaluation]; exact hv, ?_⟩
  rwa [show y.1.pc = x.1.pc from congrArg Valuation.pc hvaluation]

/-- An open mode becomes an absolute one and never a branch. -/
theorem eq_of_normalized_relative {item : Item} {i : Instruction}
    (h : item.normalized = .instruction i) (hmode : i.addressing = .resolved .relative) :
    item = .instruction i := by
  cases item with
  | instruction j =>
    obtain rfl : j.normalized = i := by simpa [Item.normalized] using h
    obtain ⟨mnemonic, addressing, operand⟩ := j
    cases addressing with
    | resolved mode => rfl
    | pending shape =>
      simp only [Instruction.normalized, Instruction.inMode, Addressing.resolved.injEq] at hmode
      exact absurd hmode (Instruction.absolute_ne_relative shape)
  | _ => cases h

theorem Reaching.normalized (h : env.Reaching leaves) :
    env.Reaching (leaves.map fun l => (l.1, l.2.normalized)) := by
  intro x hx i hitem hmode
  rw [layout_normalized] at hx
  obtain ⟨y, hy, rfl⟩ := List.mem_map.mp hx
  exact h y hy i (eq_of_normalized_relative hitem hmode) hmode

end Environment

/-! ## The extension -/

/-- Where the extension changes nothing, a branch that can be replaced reaches its target. -/
theorem Pass.reaches_of_quiet {s : Sweep Unit} {l : Nat × Statement} {m : Mnemonic} {target : Expr}
    (h : (Visit.step extendBranches s l).Quiet) (hb : l.2.item.branch? = some (m, target))
    (hm : m.Replaceable) :
    ∃ v, s.context.evaluate target = .ok v ∧
      fitsByte (displacement v s.context.env.pc) = true := by
  obtain ⟨hclean, hunchanged⟩ := h
  obtain ⟨-, -, hvalue⟩ := extendBranches_of_clean hclean
  obtain ⟨v, hv⟩ := hvalue m target hb
  refine ⟨v, hv, ?_⟩
  by_contra hfits
  have hfar : ¬ s.Reaches l.2.location target := by
    rwa [Sweep.Reaches, Sweep.valueOf_of_evaluate hv]
  -- A branch that is replaced counts as a change.
  simp only [Visit.step] at hunchanged
  rcases hm with rfl | ⟨inverse, hinv⟩
  · rw [(extendBranches_always hb hfar).2] at hunchanged
    cases hunchanged
  · rw [(extendBranches_conditional hb hinv hfar).2] at hunchanged
    cases hunchanged

namespace Workspace

variable {w : Workspace}

/-- **A program in which the extension finds nothing to do** has its branches within reach, if all
of them can be replaced. -/
theorem Placed.reaching (h : w.Placed) (hq : (w.closing () Pass.extendBranches).Quiet)
    (hext : ∀ l ∈ w.program.leaves, l.2.item.Extensible) :
    w.context.env.Reaching w.program.leaves := by
  intro y hy i hitem hmode
  have hi : i.Extensible := by
    have hextensible := hext y.2 (mem_of_mem_reached hy)
    rw [hitem] at hextensible
    exact hextensible
  obtain ⟨target, htarget⟩ := Option.isSome_iff_exists.mp (hi.target hmode)
  have hb : y.2.2.item.branch? = some (i.mnemonic, target) := by
    simp [hitem, Item.branch?, Instruction.branchTarget?, hmode, htarget]
  -- The run that changes nothing goes along the layout, so it comes to the branch where it stands.
  have htracks : w.Tracks () Pass.extendBranches := fun x hx => by
    rw [Pass.observes_extendBranches hq x hx]
    rfl
  rw [← h.rested.env_restart] at hy
  obtain ⟨x, hx, hcontext, hyx⟩ := htracks.layout.2.2 y hy
  have hquiet := forall_reached_of_foldl (f := Visit.step Pass.extendBranches)
    (fun _ _ hs => (Pass.extendBranches_of_quiet hs).1) hq x hx
  have henv : x.1.context.env = y.1 := by rw [hcontext]; rfl
  rw [hyx] at hb
  obtain ⟨v, hv, hfits⟩ := Pass.reaches_of_quiet hquiet hb (hi.replaceable hmode)
  rw [Context.evaluate, henv] at hv
  rw [henv] at hfits
  exact ⟨target, v, htarget, hv, hfits⟩

theorem Placed.reaching_finish (h : w.Placed) (hr : w.context.env.Reaching w.program.leaves)
    (hc : (w.sweep () Pass.normalizeModes id).1.Clean) :
    w.finish.context.env.Reaching w.finish.program.leaves := by
  obtain ⟨-, -, hleaves, hagrees⟩ := h.finish hc
  obtain ⟨ν, hν⟩ := Environment.exists_nesting w.context.env w.program.leaves
  rw [← Environment.Nested, h.rested.env_restart] at hν
  rw [hleaves]
  exact hr.normalized.congr (hagrees ν hν) hν.normalized

/-! ## Writing the image -/

/-- **The image is written along the layout until the first fault.** -/
theorem env_of_clean_visit {x : Sweep Image × Nat × Statement} (hx : x ∈ w.visits {} Pass.emit)
    (hclean : x.1.context.hasErrors = false) :
    ∃ y ∈ w.context.env.restart.layout w.program.leaves, x.1.context.env = y.1 ∧ y.2 = x.2 := by
  -- A fault may lead away from the layout, so both are related only as long as there is none.
  obtain ⟨-, hthere, -⟩ := lockstep (s := w.opening ({} : Image)) (t := w.context.env.restart)
    (R := fun (s : Sweep Image) f => s.context.hasErrors = false → s.context.env = f)
    (f := Visit.step Pass.emit) (g := fun env l => env.follow l.2.item) (l := w.program.leaves)
    (fun _ => env_opening)
    (by
      intro x _ y _ _ hR hstep
      obtain ⟨hs, hcontext⟩ := Pass.emit_of_clean hstep
      rw [hcontext, Context.env_mapEnv, hR hs])
  obtain ⟨y, hy, hR, hyx⟩ := hthere x hx
  exact ⟨y, hy, hR hclean, hyx⟩

end Workspace

/-- No fault is about a branch that does not reach its target. -/
def Context.BlamesNoBranch (c : Context) : Prop :=
  ∀ fault ∈ c.diagnostics.errors, fault.value ≠ .emission .branchOutOfRange

namespace Context.BlamesNoBranch

variable {c : Context}

theorem of_clean (h : c.hasErrors = false) : c.BlamesNoBranch := by
  simp [BlamesNoBranch, hasErrors_eq_false.mp h]

theorem error (h : c.BlamesNoBranch) {fault : Fault} (hfault : fault ≠ .emission .branchOutOfRange)
    (location : Location) : (c.error location fault).BlamesNoBranch := by
  intro other hother
  rcases List.mem_append.mp hother with hother | hother
  · exact h other hother
  · rw [List.mem_singleton.mp hother]
    exact hfault

theorem write {s : Sweep Image} (h : s.context.BlamesNoBranch) (location : Location)
    (bytes : List UInt8) : (Pass.write s location bytes).context.BlamesNoBranch := by
  unfold Pass.write
  split
  · exact h
  · exact h.error (by simp) _

end Context.BlamesNoBranch

/-- **Writing a branch that reaches its target** may be a fault, but not that it does not. -/
theorem Pass.blamesNoBranch_emit {s : Sweep Image} {l : Nat × Statement} {i : Instruction}
    {target : Expr} {v : Value} (h : s.context.BlamesNoBranch) (hitem : l.2.item = .instruction i)
    (hmode : i.addressing = .resolved .relative) (htarget : i.operand = some target)
    (hv : s.context.evaluate target = .ok v)
    (hfits : fitsByte (displacement v s.context.env.pc) = true) :
    (Visit.step emit s l).context.BlamesNoBranch := by
  simp only [Visit.step, emit, Visit.observe, hitem, emitInstruction, hmode]
  split
  · exact h.error (by simp) _
  · rename_i opcode _
    -- Whether the opcode can be written or not, the target keeps its value and its distance.
    have hwrite := reports_write (P := fun _ => True) (fun _ _ => trivial) s l.2.location [opcode]
    have hvalue := @Sweep.valueOf_of_evaluate _ _ l.2.location _ _
      ((hwrite.evaluate_eq target).trans hv)
    simp only [htarget, emitOperand, emitDisplacement, hvalue, hwrite.env]
    rw [if_pos (by simpa [fitsByte] using hfits)]
    exact (h.write _ _).write _ _

/-- Going back to the beginning finds at most a scope that is left open. -/
theorem Context.symbol_of_restart {c : Context} (h : c.hasErrors = false) :
    ∀ fault ∈ c.restart.diagnostics.errors, ∃ e, fault.value = .symbol e := by
  have hnil := hasErrors_eq_false.mp h
  unfold Context.restart
  dsimp only
  split
  · simp [Context.mapEnv, hnil]
  · simp [Context.mapEnv, Context.error, Diagnostics.error, hnil]

namespace Workspace

variable {w : Workspace}

/-- If branches are within reach, then a branch that is written before the first fault does not
lead to a fault for being out of reach. -/
theorem blamesNoBranch_visit (hw : w.Placed) (hr : w.context.env.Reaching w.program.leaves)
    {x : Sweep Image × Nat × Statement} (hx : x ∈ w.visits {} Pass.emit)
    (hclean : x.1.context.hasErrors = false) {i : Instruction} (hitem : x.2.2.item = .instruction i)
    (hmode : i.addressing = .resolved .relative) :
    (Visit.step Pass.emit x.1 x.2).context.BlamesNoBranch := by
  obtain ⟨y, hy, henv, hyx⟩ := env_of_clean_visit hx hclean
  rw [hw.rested.env_restart] at hy
  obtain ⟨target, v, htarget, hv, hfits⟩ := hr y hy i (hyx ▸ hitem) hmode
  rw [← henv] at hv hfits
  exact Pass.blamesNoBranch_emit (.of_clean hclean) hitem hmode htarget hv hfits

/-- **The first fault of the last pass** is found at a statement that is reached without one, unless
it is that a scope is left open. -/
theorem exists_first_fault (hw : w.Clean) (hrested : w.Rested) {fault : Located Fault}
    (h : (w.sweep ({} : Image) Pass.emit id).1.context.diagnostics.errors.head? = some fault)
    (hfault : ∀ e, fault.value ≠ .symbol e) :
    ∃ x ∈ w.visits {} Pass.emit, x.1.context.hasErrors = false ∧
      (Visit.step Pass.emit x.1 x.2).context.diagnostics.errors.head? = some fault := by
  have hopening : (w.opening ({} : Image)).context.hasErrors = false := by
    rw [opening, hrested.restart]
    exact hw
  have hclosing : ¬ (w.closing {} Pass.emit).context.hasErrors = false := by
    intro hclean
    rw [Workspace.sweep_eq] at h
    obtain ⟨e, he⟩ := Context.symbol_of_restart hclean fault (List.mem_of_head? h)
    exact hfault e he
  obtain ⟨x, hx, hclean, hstep⟩ := exists_reached_loss
    (P := fun s : Sweep Image => s.context.hasErrors = false) hopening hclosing
  refine ⟨x, hx, hclean, ?_⟩
  -- Faults are never taken back, so the first one of the statement is the first one of all.
  obtain ⟨added, hadded, -⟩ := adds_of_visits Pass.inPlace_emit.faithful hx
  rw [Context.hasErrors_eq_false] at hstep
  obtain ⟨first, rest, hcons⟩ := List.exists_cons_of_ne_nil hstep
  rw [hadded, hcons] at h
  rw [hcons]
  exact h

/-- If branches are within reach and the first fault is about a branch that does not reach its
target, then it was found at something else than a branch with a displacement of one byte. -/
theorem exists_first_fault_no_branch (hw : w.Clean) (hplaced : w.Placed)
    (hr : w.context.env.Reaching w.program.leaves) {fault : Located Fault}
    (h : (w.sweep ({} : Image) Pass.emit id).1.context.diagnostics.errors.head? = some fault)
    (hvalue : fault.value = .emission .branchOutOfRange) :
    ∃ x ∈ w.visits {} Pass.emit, x.1.context.hasErrors = false ∧
      (Visit.step Pass.emit x.1 x.2).context.diagnostics.errors.head? = some fault ∧
      ∀ i, x.2.2.item = .instruction i → i.addressing ≠ .resolved .relative := by
  obtain ⟨x, hx, hclean, hfirst⟩ := exists_first_fault hw hplaced.rested h (by simp [hvalue])
  refine ⟨x, hx, hclean, hfirst, fun i hitem hmode => ?_⟩
  have hno := blamesNoBranch_visit hplaced hr hx hclean hitem hmode
  exact hno fault (List.mem_of_head? hfirst) hvalue

end Workspace

namespace Assembly

/-- The workspace in which the image of some sources is written, when branches are extended. -/
def extendedSources (cpu : Cpu) (fs : FileSystem) (stdin : Except FileError (List UInt8))
    (inputs : List Source.Input) : Workspace :=
  extended cpu (Source.read cpu fs stdin inputs).program
    (Source.read cpu fs stdin inputs).diagnostics

/-- If every branch can be replaced, then branches are within reach when the image is written. -/
theorem reaching_extended {cpu : Cpu} {program : Program} {diagnostics : Diagnostics}
    (hext : ∀ l ∈ program.leaves, l.2.item.Extensible)
    (h : (extended cpu program diagnostics).Clean) :
    (extended cpu program diagnostics).Placed ∧
      (extended cpu program diagnostics).context.env.Reaching
        (extended cpu program diagnostics).program.leaves := by
  obtain ⟨hu, hv, hfinish⟩ := @clean_of_runStages ⟨cpu, true⟩ program diagnostics h
  rw [selected_extend] at hu
  obtain ⟨hplaced, hquiet⟩ := Stage.placed_extension hu
  rw [← selected_extend] at hplaced hquiet
  have hreaching : (selected ⟨cpu, true⟩ program diagnostics).context.env.Reaching
      (selected ⟨cpu, true⟩ program diagnostics).program.leaves :=
    hplaced.reaching hquiet (extensible_selected hext)
  have heq : extended cpu program diagnostics =
      (selected ⟨cpu, true⟩ program diagnostics).finish := hfinish
  rw [heq]
  exact ⟨(hplaced.finish hv).1, hplaced.reaching_finish hreaching hv⟩

theorem diagnostics_ofProgram {options : Options} {program : Program} {diagnostics : Diagnostics}
    (h : (runStages (Stage.pipeline options.branchExtend)
      (start options program diagnostics)).Clean) :
    (ofProgram options program diagnostics).diagnostics =
      ((runStages (Stage.pipeline options.branchExtend) (start options program
        diagnostics)).sweep ({} : Image) Pass.emit id).1.context.diagnostics := by
  simp only [ofProgram, Workspace.emit]
  rw [if_neg (Bool.eq_false_iff.mp h)]

theorem diagnostics_extended {cpu : Cpu} {program : Program} {diagnostics : Diagnostics}
    (h : (extended cpu program diagnostics).Clean) :
    (ofProgram ⟨cpu, true⟩ program diagnostics).diagnostics =
      ((extended cpu program diagnostics).sweep ({} : Image) Pass.emit
        id).1.context.diagnostics := by
  have hstages : extended cpu program diagnostics =
      runStages (Stage.pipeline (Options.mk cpu true).branchExtend)
        (start ⟨cpu, true⟩ program diagnostics) := by
    rw [extended]
  rw [hstages] at h ⊢
  exact diagnostics_ofProgram h

/-- **A branch is never the first thing that does not fit.** If sources are read and go through all
stages without a fault, with branches being extended, then every branch with a displacement of one
byte that is left, those that were put in the place of others included, reaches its target from
where the layout has it, with the labels as they are in the end. As long as no fault was found, the
last pass never finds such a branch out of reach. If the first of all faults is about a branch that
does not reach its target, then it was found at a statement that is no such branch. -/
theorem branch_never_first_fault (cpu : Cpu) (fs : FileSystem)
    (stdin : Except FileError (List UInt8)) (inputs : List Source.Input)
    (h : (extendedSources cpu fs stdin inputs).Clean) :
    (extendedSources cpu fs stdin inputs).context.env.Reaching
        (extendedSources cpu fs stdin inputs).program.leaves ∧
      (∀ x ∈ (extendedSources cpu fs stdin inputs).visits {} Pass.emit,
        x.1.context.hasErrors = false → ∀ i, x.2.2.item = .instruction i →
          i.addressing = .resolved .relative →
            (Visit.step Pass.emit x.1 x.2).context.BlamesNoBranch) ∧
      ∀ fault, (ofSources ⟨cpu, true⟩ fs stdin inputs).diagnostics.errors.head? = some fault →
        fault.value = .emission .branchOutOfRange →
          ∃ x ∈ (extendedSources cpu fs stdin inputs).visits {} Pass.emit,
            x.1.context.hasErrors = false ∧
              (Visit.step Pass.emit x.1 x.2).context.diagnostics.errors.head? = some fault ∧
              ∀ i, x.2.2.item = .instruction i → i.addressing ≠ .resolved .relative := by
  have hread := Source.written_read cpu fs stdin inputs
  -- From here on it does not matter how the program was read.
  simp only [ofSources_eq]
  unfold extendedSources at h ⊢
  generalize Source.read cpu fs stdin inputs = read at h hread ⊢
  obtain ⟨hplaced, hreaching⟩ := reaching_extended hread h
  refine ⟨hreaching, fun x hx hclean i hitem hmode => ?_, fun fault hhead hvalue => ?_⟩
  · exact Workspace.blamesNoBranch_visit hplaced hreaching hx hclean hitem hmode
  · rw [diagnostics_extended h] at hhead
    exact Workspace.exists_first_fault_no_branch h hplaced hreaching hhead hvalue

/-- A branch and a call with a displacement of two bytes, both to a label that neither reaches. -/
def farCall : List Source.Input :=
  [.text "far" [' ', 'b', 'e', 'q', ' ', 'l', '\n', ' ', 'b', 's', 'r', ' ', 'l', '\n',
    ' ', '.', 'o', 'r', 'g', ' ', '$', '9', '0', '0', '0', '\n', 'l', ':', '\n'] ""]

theorem branch_never_first_fault_farCall :
    (extendedSources .csg4502 .empty (.ok []) farCall).Clean ∧
      (extendedSources .csg4502 .empty (.ok []) farCall).program.leaves.map
        (fun l => l.2.item.branch?.map Prod.fst) = [some .bne, none, none, none, none] ∧
      (extendedSources .csg4502 .empty (.ok []) farCall).context.env.Reaching
        (extendedSources .csg4502 .empty (.ok []) farCall).program.leaves ∧
      (ofSources ⟨.csg4502, true⟩ .empty (.ok []) farCall).diagnostics.errors =
        [⟨.source "far" 2 2, .emission .branchOutOfRange⟩] ∧
      ∃ x ∈ (extendedSources .csg4502 .empty (.ok []) farCall).visits {} Pass.emit,
        x.1.context.hasErrors = false ∧
          (Visit.step Pass.emit x.1 x.2).context.diagnostics.errors.head? =
            some ⟨.source "far" 2 2, .emission .branchOutOfRange⟩ ∧
          ∀ i, x.2.2.item = .instruction i → i.addressing ≠ .resolved .relative := by
  have hclean : (extendedSources .csg4502 .empty (.ok []) farCall).Clean := by
    unfold Workspace.Clean
    decide +kernel
  have herrors : (ofSources ⟨.csg4502, true⟩ .empty (.ok []) farCall).diagnostics.errors =
      [⟨.source "far" 2 2, .emission .branchOutOfRange⟩] := by
    decide +kernel
  obtain ⟨hreaching, -, hfirst⟩ := branch_never_first_fault .csg4502 .empty (.ok []) farCall hclean
  exact ⟨hclean, by decide +kernel, hreaching, herrors,
    hfirst _ (congrArg List.head? herrors) rfl⟩

end Assembly
end Assembler6502
