import Assembler6502.Proofs.Faithfulness
import Assembler6502.Proofs.Rounds

/-!
# Convergence of placement

Labels find their places in groups within groups, and the group that places labels is only one of
them. What holds in the end is that the labels are settled on the layout of the program: the group
that places labels ends with an update that changes nothing, and every group around it ends with a
pass that changes nothing either, so that it hands on what the inner group returned. Making open
modes absolute keeps the layout, so the update behind it finds nothing to do, and the image is
written where the labels say.

## Main definitions

* `Workspace.Placed`: the labels are settled on the layout of the program

## Main results

* `Workspace.placed_updateLabels`: an update that changes nothing leaves the labels settled
* `Stage.placed_selection`: the labels are settled when instructions have found their places
* `Assembly.labels_where_emitted`: every label has the value that the image gives it
-/

namespace Assembler6502

namespace Workspace

variable {w : Workspace}

/-- The context stands at the beginning of the program; on its layout every label has the value of
its expression, and nothing is a fault. -/
structure Placed (w : Workspace) : Prop where
  rested : w.Rested
  settled : w.context.env.Settled w.program.leaves
  walkable : w.context.env.Walkable w.program.leaves

/-! ## Sweeps without a fault -/

theorem clean_sweep {μ : Type} {memory : μ} {visit : Visit μ} :
    (w.sweep memory visit id).1.Clean ↔
      (w.closing memory visit).context.restart.hasErrors = false := by
  rw [Workspace.sweep_eq]
  rfl

theorem changed_sweep {μ : Type} {memory : μ} {visit : Visit μ} {close : Context → Context} :
    (w.sweep memory visit close).2.1 = (w.closing memory visit).changed := by
  rw [Workspace.sweep_eq]

theorem quiet_closing {μ : Type} {memory : μ} {visit : Visit μ}
    (hc : (w.sweep memory visit id).1.Clean) (hq : (w.sweep memory visit id).2.1 = false) :
    (w.closing memory visit).Quiet :=
  ⟨(Context.hasErrors_restart.mp (clean_sweep.mp hc)).1, changed_sweep.symm.trans hq⟩

theorem leaves_updateLabels : (w.sweep () Pass.updateLabels id).1.program.leaves =
    w.program.leaves := by
  rw [Workspace.sweep_eq, children_sweep_eq_self fun _ _ => rfl]
  rfl

/-- **An update that changes nothing** leaves the labels settled, in an environment that agrees with
the one that it found. -/
theorem placed_updateLabels {ν : Nesting}
    (hν : Environment.Nested ν w.context.env.restart w.program.leaves)
    (hc : (w.sweep () Pass.updateLabels id).1.Clean)
    (hq : (w.sweep () Pass.updateLabels id).2.1 = false) :
    (w.sweep () Pass.updateLabels id).1.Placed ∧
      Environment.Agrees ν w.context.env.restart
        (w.sweep () Pass.updateLabels id).1.context.env := by
  obtain ⟨hs, hw, ha⟩ :=
    Pass.quiet_updateLabels hν (clean_sweep.mp hc) (changed_sweep.symm.trans hq)
  have henv : (w.sweep () Pass.updateLabels id).1.context.env =
      (w.closing () Pass.updateLabels).context.env.restart := by
    simp [Workspace.sweep_eq]
  rw [← henv] at ha
  refine ⟨⟨rested_sweep w () _ id, ?_, ?_⟩, ha⟩ <;> rw [leaves_updateLabels]
  · exact hs.congr ha hν
  · exact hw.congr ha hν

theorem Placed.sweep_eq {μ : Type} {memory : μ} {visit : Visit μ} (h : w.Placed)
    (ho : w.Observes memory visit) : w.sweep memory visit id = (w, false, memory) :=
  ho.sweep_eq h.rested h.walkable.closed

/-! ## The passes behind the selection of encodings -/

theorem env_normalizeModes (w : Workspace) :
    (w.sweep () Pass.normalizeModes id).1.context.env = w.context.env.restart :=
  env_sweep Pass.inPlace_normalizeModes.ordinary fun _ => rfl

/-- Making open modes absolute leaves placed labels placed. -/
theorem Placed.normalizeModes (h : w.Placed) : (w.sweep () Pass.normalizeModes id).1.Placed := by
  refine ⟨rested_sweep w () _ id, ?_, ?_⟩ <;>
    rw [env_normalizeModes, Pass.leaves_normalizeModes, h.rested.env_restart]
  · exact h.settled.normalized
  · exact h.walkable.normalized

theorem Placed.updateLabels (h : w.Placed) (hc : w.Clean) :
    (w.sweep () Pass.updateLabels id).1.Clean ∧ (w.sweep () Pass.updateLabels id).2.1 = false := by
  obtain ⟨ν, hν⟩ := Environment.exists_nesting w.context.env w.program.leaves
  rw [clean_sweep, changed_sweep]
  refine Pass.updateLabels_of_settled (by rw [h.rested.restart]; exact hc) hν ?_ ?_ <;>
    rw [h.rested.env_restart]
  · exact h.settled
  · exact h.walkable

end Workspace

namespace Stage

variable {w : Workspace} {m : Memory}

/-! ## Groups that place labels -/

theorem placed_placement (h : (placement.run w m).1.Clean) : (placement.run w m).1.Placed := by
  rw [placement, run_fixpoint] at h ⊢
  obtain ⟨v, k, hv, heq, hlast⟩ := Workspace.iterate_exit h
  rw [← heq] at h ⊢
  simp only [runAll_single, run_pass, changed_run_pass,
    Workspace.runPass_of_visit Pass.visit?_updateLabels hv] at h hlast ⊢
  obtain ⟨ν, hν⟩ := Environment.exists_nesting v.context.env v.program.leaves
  exact (Workspace.placed_updateLabels hν h hlast).1

/-- What a stage ends with, labels placed included, a group of the stage and a pass that only
observes if it changes nothing ends with, too, and with nothing left for the pass to do. -/
theorem placed_group {P : Workspace → Prop} {name : String} {inner : Stage} {kind : Pass.Kind}
    {visit : Visit Unit} {rounds : Nat} (hv : kind.visit? = some visit) (hP : ∀ w, P w → w.Placed)
    (hinner : ∀ w m, (inner.run w m).1.Clean → P (inner.run w m).1)
    (hobserves : ∀ w : Workspace, (w.closing () visit).Quiet → w.Observes () visit)
    (h : ((fixpoint name [inner, pass kind] rounds).run w m).1.Clean) :
    P ((fixpoint name [inner, pass kind] rounds).run w m).1 ∧
      (((fixpoint name [inner, pass kind] rounds).run w m).1.closing () visit).Quiet := by
  rw [run_fixpoint] at h ⊢
  obtain ⟨v, k, -, heq, hlast⟩ := Workspace.iterate_exit h
  rw [← heq] at h ⊢
  simp only [runAll_pair, run_pass, changed_run_pass] at h hlast ⊢
  have hu := Workspace.clean_of_runPass h
  simp only [Workspace.runPass_of_visit hv hu] at h hlast ⊢
  -- The last run of the pass changed nothing, so it has returned what the inner stage did.
  have hreturned := hinner _ _ hu
  have hquiet := Workspace.quiet_closing h hlast
  rw [(hP _ hreturned).sweep_eq (hobserves _ hquiet)]
  exact ⟨hreturned, hquiet⟩

theorem sized_sizing (h : (sizing.run w m).1.Clean) :
    (sizing.run w m).1.Placed ∧ ((sizing.run w m).1.closing () Pass.collapse).Quiet :=
  placed_group rfl (fun _ h => h) (fun _ _ => placed_placement) (fun _ => Pass.observes_collapse) h

theorem placed_sizing (h : (sizing.run w m).1.Clean) : (sizing.run w m).1.Placed :=
  (sized_sizing h).1

theorem placed_extension (h : ((selection true).run w m).1.Clean) :
    ((selection true).run w m).1.Placed ∧
      (((selection true).run w m).1.closing () Pass.extendBranches).Quiet :=
  placed_group rfl (fun _ h => h) (fun _ _ => placed_sizing)
    (fun _ => Pass.observes_extendBranches) h

/-- **When instructions have found their places**, labels have found theirs. -/
theorem placed_selection {extend : Bool} (h : ((selection extend).run w m).1.Clean) :
    ((selection extend).run w m).1.Placed := by
  cases extend with
  | false => exact placed_sizing h
  | true => exact (placed_extension h).1

theorem go_pass_of_visit {kind : Pass.Kind} {visit : Visit Unit} (hv : kind.visit? = some visit)
    (hw : w.Clean) :
    (pass kind).go w = ((w.sweep () visit id).1, (w.sweep () visit id).2.1) := by
  simp only [go, run_pass, changed_run_pass, Workspace.runPass_of_visit hv hw]

end Stage

/-! ## The image -/

/-- The workspace in which the image is written, in terms of the one in which instructions have
found their places. -/
def Workspace.finish (w : Workspace) : Workspace :=
  ((w.sweep () Pass.normalizeModes id).1.sweep () Pass.updateLabels id).1

/-- **The two passes behind the selection of encodings** keep the layout of placed labels: the
update changes nothing, and the labels agree with those from before. -/
theorem Workspace.Placed.finish {w : Workspace} (h : w.Placed)
    (hc : (w.sweep () Pass.normalizeModes id).1.Clean) :
    w.finish.Placed ∧
      ((w.sweep () Pass.normalizeModes id).1.sweep () Pass.updateLabels id).2.1 = false ∧
      w.finish.program.leaves = w.program.leaves.map (fun l => (l.1, l.2.normalized)) ∧
      ∀ ν, Environment.Nested ν w.context.env w.program.leaves →
        Environment.Agrees ν w.context.env w.finish.context.env := by
  have henv : (w.sweep () Pass.normalizeModes id).1.context.env.restart = w.context.env := by
    rw [env_normalizeModes, Environment.restart_restart, h.rested.env_restart]
  obtain ⟨hclean, hq⟩ := h.normalizeModes.updateLabels hc
  refine ⟨?_, hq, Workspace.leaves_updateLabels.trans (Pass.leaves_normalizeModes w),
    fun ν hν => ?_⟩
  · obtain ⟨ν, hν⟩ := Environment.exists_nesting
      (w.sweep () Pass.normalizeModes id).1.context.env
      (w.sweep () Pass.normalizeModes id).1.program.leaves
    exact (Workspace.placed_updateLabels hν hclean hq).1
  · have hν' := hν.normalized
    rw [← Pass.leaves_normalizeModes, ← henv] at hν'
    have ha := (Workspace.placed_updateLabels hν' hclean hq).2
    rwa [henv] at ha

theorem Workspace.clean_of_emit {w : Workspace} (h : w.emit.1.Clean) :
    w.Clean ∧ (w.closing {} Pass.emit).context.hasErrors = false := by
  by_cases hw : w.context.hasErrors = true
  · simp only [Workspace.emit, hw, if_true] at h
    exact absurd hw (Bool.eq_false_iff.mp h)
  · simp only [Workspace.emit, hw] at h
    exact ⟨Bool.eq_false_iff.mpr hw,
      (Context.hasErrors_restart.mp (Workspace.clean_sweep.mp h)).1⟩

namespace Assembly

variable {options : Options} {program : Program} {diagnostics : Diagnostics}

/-- A program when instructions have found their places. -/
def selected (options : Options) (program : Program) (diagnostics : Diagnostics) : Workspace :=
  ((Stage.selection options.branchExtend).go
    (runStages Stage.preparation (start options program diagnostics))).1

theorem placed_selected (h : (selected options program diagnostics).Clean) :
    (selected options program diagnostics).Placed :=
  Stage.placed_selection h

theorem runStages_pipeline :
    runStages (Stage.pipeline options.branchExtend) (start options program diagnostics) =
      ((Stage.pass .updateLabels).go
        ((Stage.pass .normalizeModes).go (selected options program diagnostics)).1).1 := by
  simp only [runStages, Stage.pipeline, List.foldl_append]
  rfl

/-- Nothing runs behind a fault, so stages that end without one had none before any pass. -/
theorem clean_of_runStages
    (h : (runStages (Stage.pipeline options.branchExtend)
      (start options program diagnostics)).Clean) :
    (selected options program diagnostics).Clean ∧
      ((selected options program diagnostics).sweep () Pass.normalizeModes id).1.Clean ∧
      runStages (Stage.pipeline options.branchExtend) (start options program diagnostics) =
        (selected options program diagnostics).finish := by
  rw [runStages_pipeline] at h ⊢
  have hv := Stage.clean_of_go h
  have hu := Stage.clean_of_go hv
  rw [Stage.go_pass_of_visit Pass.visit?_normalizeModes hu] at hv ⊢
  rw [Stage.go_pass_of_visit Pass.visit?_updateLabels hv]
  exact ⟨hu, hv, rfl⟩

/-- Nothing is found wrong when assembling ends without a fault: not in the stages, and not when the
image is written. -/
theorem clean_of_ofProgram
    (h : (ofProgram options program diagnostics).diagnostics.hasErrors = false) :
    (selected options program diagnostics).Clean ∧
      ((selected options program diagnostics).sweep () Pass.normalizeModes id).1.Clean ∧
      runStages (Stage.pipeline options.branchExtend) (start options program diagnostics) =
        (selected options program diagnostics).finish ∧
      ((selected options program diagnostics).finish.closing {} Pass.emit).context.hasErrors =
        false := by
  have hemit : (runStages (Stage.pipeline options.branchExtend)
      (start options program diagnostics)).emit.1.Clean := h
  obtain ⟨hstages, hclosing⟩ := Workspace.clean_of_emit hemit
  obtain ⟨hu, hv, heq⟩ := clean_of_runStages hstages
  rw [heq] at hclosing
  exact ⟨hu, hv, heq, hclosing⟩

/-- **Labels are where the image has them.** If assembling ends without a fault, then the last
update of labels changes nothing, and wherever the image is written past the definition of a label,
the label has the value that its expression has there. A label that is defined as the program
counter has the address at which writing goes on. -/
theorem labels_where_emitted (options : Options) (program : Program) (diagnostics : Diagnostics)
    (h : (ofProgram options program diagnostics).diagnostics.hasErrors = false) :
    (Stage.pipeline options.branchExtend).getLast? = some (.pass .updateLabels) ∧
      ((Stage.pass .updateLabels).go
        (runStages (Stage.pipeline options.branchExtend).dropLast
          (start options program diagnostics))).2 = false ∧
      ∀ x ∈ (runStages (Stage.pipeline options.branchExtend)
          (start options program diagnostics)).visits {} Pass.emit,
        ∀ symbol value, x.2.2.item = .label symbol value →
          ∃ v, x.1.context.evaluate value = .ok v ∧ x.1.context.env.lookup symbol = some v ∧
            (value = .programCounter → (Visit.step Pass.emit x.1 x.2).context.env.pc = v) := by
  obtain ⟨hu, hv, hstages, hclosing⟩ := clean_of_ofProgram h
  have hplaced := placed_selected hu
  obtain ⟨hz, hq, -, -⟩ := hplaced.finish hv
  refine ⟨rfl, ?_, ?_⟩
  · have hdrop : runStages (Stage.pipeline options.branchExtend).dropLast
        (start options program diagnostics) =
          ((selected options program diagnostics).sweep () Pass.normalizeModes id).1 := by
      have hgo := Stage.go_pass_of_visit Pass.visit?_normalizeModes hu
      rw [← congrArg Prod.fst hgo]
      rfl
    rw [hdrop, Stage.go_pass_of_visit Pass.visit?_updateLabels hv]
    exact hq
  · rw [hstages]
    intro x hx symbol value hitem
    -- The image is written along the layout, and there the labels are settled.
    obtain ⟨y, hy, hcontext, heq⟩ := (Pass.tracks_emit hclosing).layout.2.1 x hx
    rw [hz.rested.env_restart] at hy
    obtain ⟨v, hv, hlookup⟩ := hz.settled y hy symbol value (heq ▸ hitem)
    have henv : x.1.context.env = y.1 := by rw [hcontext]; rfl
    refine ⟨v, by rw [Context.evaluate, henv]; exact hv, henv ▸ hlookup, ?_⟩
    rintro rfl
    have hpc : x.1.context.env.pc = v := by
      rw [henv]
      simpa [Expr.evaluate, Environment.valuation] using hv
    rw [← hpc]
    simp [Visit.step, Pass.emit, Visit.observe, hitem]

/-- A branch that reaches too far, a label behind it, and a branch back to the label. -/
def backBranch : Program :=
  ⟨[.leaf 1 ⟨.topLevel, .instruction (.pending .beq .memory (.constant 1000))⟩,
    .leaf 2 ⟨.topLevel, .label (.global "l") .programCounter⟩,
    .leaf 3 ⟨.topLevel, .setPc (.pcPlus 124)⟩,
    .leaf 4 ⟨.topLevel, .instruction (.pending .bne .memory (.symbol (.global "l")))⟩], 5⟩

theorem labels_where_emitted_backBranch :
    (ofProgram {} backBranch {}).diagnostics.hasErrors = false ∧
      ((runStages (Stage.pipeline true) (start {} backBranch {})).visits {} Pass.emit).map
        (fun x => x.1.context.env.pc) = [0, 2, 5, 5, 129, 131] ∧
      ∀ x ∈ (runStages (Stage.pipeline true) (start {} backBranch {})).visits {} Pass.emit,
        x.2.2.item = .label (.global "l") .programCounter →
          x.1.context.env.lookup (.global "l") =
            some (Visit.step Pass.emit x.1 x.2).context.env.pc := by
  have h : (ofProgram {} backBranch {}).diagnostics.hasErrors = false := by decide +kernel
  obtain ⟨-, -, hlabels⟩ := labels_where_emitted {} backBranch {} h
  refine ⟨h, by decide +kernel, fun x hx hitem => ?_⟩
  obtain ⟨v, -, hlookup, hpc⟩ := hlabels x hx _ _ hitem
  rw [hlookup, hpc rfl]

end Assembly
end Assembler6502
