import Assembler6502.Proofs.Convergence

/-!
# Conservativity of the extension

A program that can be assembled without the extension of branches is assembled to the same image
with it. Writing the image has shown that every branch reaches its target, and it was written along
the layout that the extension sees: so the first run of the extension finds nothing to replace.

## Main results

* `Assembly.branches_reach`: on the layout of a program that was assembled, branches reach their
  targets
* `Assembly.extension_conservative`: the extension leaves what was assembled without it
-/

namespace Assembler6502

/-- If the extension has nothing to do when instructions have found their sizes, then they have
found their places. -/
theorem Stage.go_selection_of_unchanged {w : Workspace} (hclean : (sizing.go w).1.Clean)
    (h : (sizing.go w).1.sweep () Pass.extendBranches id = ((sizing.go w).1, false, ())) :
    ((selection true).go w).1 = ((selection false).go w).1 := by
  -- The first round of the group is the sizing alone, and then a run that changes nothing.
  have hround := @runAll_pair _ _ sizing w [] (pass .extendBranches)
  have hsizing : (sizing.run w .fresh).1 = (sizing.go w).1 := rfl
  simp only [run_pass, changed_run_pass, List.headD_nil, List.tail_nil, hsizing,
    Workspace.runPass_of_visit Pass.visit?_extendBranches hclean, h] at hround
  exact (run_fixpoint_of_unchanged (m := .fresh) (clean_of_go hclean) hround.2).trans hround.1

namespace Assembly

variable {options : Options} {program : Program} {diagnostics : Diagnostics}

/-- Every statement of a program that was assembled was written without a fault, and when it was,
expressions had the values that they have on the layout. -/
theorem emitted_of_selected
    (h : (ofProgram options program diagnostics).diagnostics.hasErrors = false) :
    ∀ y ∈ (selected options program diagnostics).context.env.layout
        (selected options program diagnostics).program.leaves,
      ∃ x ∈ (selected options program diagnostics).finish.visits {} Pass.emit,
        x.2 = (y.2.1, y.2.2.normalized) ∧ x.1.context.env.valuation = y.1.valuation ∧
          (Pass.emit x.1 x.2.1 x.2.2).1.context.hasErrors = false := by
  obtain ⟨hu, hv, -, hclosing⟩ := clean_of_ofProgram h
  have hplaced := placed_selected hu
  obtain ⟨hz, -, hleaves, hagrees⟩ := hplaced.finish hv
  obtain ⟨ν, hν⟩ := Environment.exists_nesting (selected options program diagnostics).context.env
    (selected options program diagnostics).program.leaves
  rw [← Environment.Nested, hplaced.rested.env_restart] at hν
  intro y hy
  -- From the layout of the selected program to the one with open modes made absolute,
  have hy' : (y.1, y.2.1, y.2.2.normalized) ∈
      (selected options program diagnostics).context.env.layout
        (selected options program diagnostics).finish.program.leaves := by
    rw [hleaves, Environment.layout_normalized]
    exact List.mem_map_of_mem hy
  -- to the labels behind the last update,
  have hν' := Environment.Nested.normalized hν
  rw [← hleaves] at hν'
  obtain ⟨z, hz', hyz, hzitem⟩ := ((hagrees ν hν).layout hν').2.1 _ hy'
  -- and to the state in which the statement was written.
  rw [← hz.rested.env_restart] at hz'
  obtain ⟨x, hx, hcontext, hxz⟩ := (Pass.tracks_emit hclosing).layout.2.2 z hz'
  have henv : x.1.context.env = z.1 := by rw [hcontext]; rfl
  refine ⟨x, hx, hxz.symm.trans hzitem, ?_, ?_⟩
  · rw [henv]
    exact hyz.valuation (hν y hy)
  · exact Pass.forall_clean_emit hclosing x hx

/-- On the layout of a program that was assembled, every branch reaches its target. -/
theorem branches_reach
    (h : (ofProgram options program diagnostics).diagnostics.hasErrors = false) :
    ∀ y ∈ (selected options program diagnostics).context.env.layout
        (selected options program diagnostics).program.leaves,
      ∀ m target, y.2.2.item.branch? = some (m, target) →
        ∃ v, target.evaluate y.1.valuation = .ok v ∧
          fitsByte (displacement v y.1.pc) = true := by
  intro y hy m target hb
  obtain ⟨x, -, hxy, hvaluation, hclean⟩ := emitted_of_selected h y hy
  have hitem : x.2.2.item = .instruction (.resolved m .relative target) := by
    rw [hxy, Statement.item_normalized, Item.branch?_eq_some.mp hb]
    rfl
  -- A branch that is out of reach would have been a fault when the image was written.
  obtain ⟨-, v, -, hv, hfits, -⟩ := Pass.emit_branch hitem rfl hclean
  refine ⟨v, by rw [← hvaluation]; exact hv, ?_⟩
  rwa [show x.1.context.env.pc = y.1.pc from congrArg Valuation.pc hvaluation] at hfits

/-- A run of the extension over a program that was assembled only observes. -/
theorem observes_extendBranches_selected
    (h : (ofProgram options program diagnostics).diagnostics.hasErrors = false) :
    (selected options program diagnostics).Observes () Pass.extendBranches := by
  have hplaced := placed_selected (clean_of_ofProgram h).1
  refine Workspace.observes_of_layout fun y hy => ?_
  rw [hplaced.rested.env_restart] at hy
  exact Pass.extendBranches_observed (hplaced.walkable.followable y hy)
    (branches_reach h y hy)

/-- **The extension of branches is conservative.** A program that is assembled without a fault when
branches are not extended is assembled to the same image, with the same diagnostics and the same
labels, when they are. -/
theorem extension_conservative (cpu : Cpu) (program : Program) (diagnostics : Diagnostics)
    (h : (ofProgram ⟨cpu, false⟩ program diagnostics).diagnostics.hasErrors = false) :
    ofProgram ⟨cpu, true⟩ program diagnostics = ofProgram ⟨cpu, false⟩ program diagnostics := by
  obtain ⟨hu, -, -, -⟩ := clean_of_ofProgram h
  have hsweep := (placed_selected hu).sweep_eq (observes_extendBranches_selected h)
  have hselected : selected ⟨cpu, true⟩ program diagnostics =
      selected ⟨cpu, false⟩ program diagnostics :=
    Stage.go_selection_of_unchanged hu hsweep
  have hstages : runStages (Stage.pipeline true) (start ⟨cpu, true⟩ program diagnostics) =
      runStages (Stage.pipeline false) (start ⟨cpu, false⟩ program diagnostics) := by
    rw [@runStages_pipeline ⟨cpu, true⟩, @runStages_pipeline ⟨cpu, false⟩, hselected]
  simp only [ofProgram, hstages]

/-- A branch to itself. -/
def loop : Program :=
  ⟨[.leaf 1 ⟨.topLevel, .label (.global "l") .programCounter⟩,
    .leaf 2 ⟨.topLevel, .instruction (.pending .bne .memory (.symbol (.global "l")))⟩], 3⟩

theorem extension_conservative_loop :
    (ofProgram ⟨.mos6502, false⟩ loop {}).diagnostics.hasErrors = false ∧
      (ofProgram ⟨.mos6502, true⟩ loop {}).image.bytes = #[0xd0, 0xfe] ∧
      ofProgram ⟨.mos6502, true⟩ loop {} = ofProgram ⟨.mos6502, false⟩ loop {} := by
  have h : (ofProgram ⟨.mos6502, false⟩ loop {}).diagnostics.hasErrors = false := by
    decide +kernel
  exact ⟨h, by decide +kernel, extension_conservative .mos6502 loop {} h⟩

end Assembly
end Assembler6502
