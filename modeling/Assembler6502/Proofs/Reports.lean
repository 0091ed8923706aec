import Assembler6502.Proofs.Faithfulness
import Assembler6502.Proofs.Rounds

/-!
# What passes report

A pass reports faults of the statements that it visits: expressions without a value, scopes and
labels that do not fit together, macros that are used in a wrong way, branches that would be
extended for ever, and bytes that cannot be written. The last pass reports nothing else either, as
long as it is given what can be written. So any other fault that is there behind a pass was there
before it. No pass changes the processor.

## Main definitions

* `Context.Accounted`: every fault is one of these, or of a kind that is expected besides

## Main results

* `Workspace.ordinary_sweep`: what a pass leaves alone that finds ordinary faults
* `Workspace.cpu_runPass`, `Workspace.accounted_runPass`: the passes before the last one
-/

namespace Assembler6502

namespace Context

variable {other : Fault → Prop} {c d : Context}

/-- Every fault is one that passes find in statements, or of a kind that is expected besides. -/
def Accounted (other : Fault → Prop) (c : Context) : Prop :=
  ∀ fault ∈ c.diagnostics.errors, other fault.value ∨ fault.value.Ordinary

theorem Accounted.adds (h : c.Accounted other)
    (hadds : Adds (fun fault => other fault ∨ fault.Ordinary) c d) : d.Accounted other := by
  obtain ⟨added, herrors, hadded⟩ := hadds
  intro fault hfault
  rw [herrors] at hfault
  rcases List.mem_append.mp hfault with hfault | hfault
  · exact h fault hfault
  · exact hadded fault hfault

end Context

namespace Workspace

variable {μ : Type} {w : Workspace} {memory : μ} {visit : Visit μ} {close : Context → Context}

/-- **A pass that finds ordinary faults** adds no others and does not change the processor. -/
theorem ordinary_sweep {binds : Prop}
    (hv : ∀ s, ∀ l ∈ w.program.leaves,
      Context.Moves binds Fault.Ordinary l.2.item s.context (visit.step s l).context)
    (hclose : ∀ c, Context.Reports Fault.Ordinary c (close c)) :
    (w.sweep memory visit close).1.context.cpu = w.context.cpu ∧
      Context.Adds Fault.Ordinary w.context (w.sweep memory visit close).1.context := by
  have hrestart (c : Context) : c.restart.cpu = c.cpu ∧ Context.Adds Fault.Ordinary c c.restart :=
    ⟨c.cpu_restart, .restart (fun _ => trivial) c⟩
  have hclosing := (foldl_invariant (f := visit.step) (s := w.opening memory)
    (l := w.program.leaves) (P := fun s : Sweep μ => s.context.cpu = w.context.cpu ∧
      Context.Adds Fault.Ordinary w.context s.context) (hrestart w.context) fun x hx hs => by
        have hmoves := hv x.1 x.2 (mem_of_mem_reached hx)
        exact ⟨hmoves.cpu.trans hs.1, hs.2.trans hmoves.faults⟩).1
  have hclosed := hclose (w.closing memory visit).context
  have hend := hrestart (close (w.closing memory visit).context)
  rw [sweep_eq]
  exact ⟨hend.1.trans (hclosed.cpu.trans hclosing.1),
    (hclosing.2.trans hclosed.faults).trans hend.2⟩

/-- The passes before the last one find ordinary faults. -/
theorem ordinary_runPass {kind : Pass.Kind} (hkind : kind ≠ .emit) (d : Discovery) :
    (w.runPass kind d).1.context.cpu = w.context.cpu ∧
      Context.Adds Fault.Ordinary w.context (w.runPass kind d).1.context := by
  refine kept_runPass (I := fun v => v.context.cpu = w.context.cpu ∧
    Context.Adds Fault.Ordinary w.context v.context) (fun hclean => ?_) ⟨rfl, .refl _ _⟩
  have hsweep {μ : Type} {memory : μ} {visit : Visit μ} {binds : Prop}
      (hv : visit.Ordinary binds) :
      (w.sweep memory visit id).1.context.cpu = w.context.cpu ∧
        Context.Adds Fault.Ordinary w.context (w.sweep memory visit id).1.context :=
    ordinary_sweep (fun s l _ => hv s l.1 l.2) fun c => .refl _ c
  -- Most passes are one visit. The others have a memory or a close of their own.
  cases hv : kind.visit? with
  | some visit =>
    rw [runPass_of_visit hv hclean]
    cases kind <;> cases hv
    · exact hsweep Pass.ordinary_expandMacros
    · exact hsweep Pass.inPlace_checkExpressions.ordinary
    · exact hsweep Pass.inPlace_easyModes.ordinary
    · exact hsweep Pass.inPlace_updateLabels.ordinary
    · exact hsweep Pass.inPlace_collapse.ordinary
    · exact hsweep Pass.ordinary_extendBranches
    · exact hsweep Pass.inPlace_normalizeModes.ordinary
  | none =>
    cases kind with
    | defineMacros =>
      rw [runPass_defineMacros hclean]
      exact ordinary_sweep (fun s l _ => Pass.ordinary_defineMacros s l.1 l.2)
        Pass.reports_closeDefinition
    | initLabels =>
      rw [runPass_initLabels hclean]
      exact hsweep Pass.inPlace_initLabels.ordinary
    | checkCircularity =>
      rw [runPass_checkCircularity hclean]
      exact hsweep Pass.inPlace_checkCircularity.ordinary
    | emit => exact absurd rfl hkind
    | _ => cases hv

theorem cpu_runPass {kind : Pass.Kind} (hkind : kind ≠ .emit) (d : Discovery) :
    (w.runPass kind d).1.context.cpu = w.context.cpu :=
  (ordinary_runPass hkind d).1

/-- **The passes before the last one** add no faults but those that they find in statements. -/
theorem accounted_runPass {other : Fault → Prop} {kind : Pass.Kind} (hkind : kind ≠ .emit)
    (d : Discovery) (h : w.context.Accounted other) :
    (w.runPass kind d).1.context.Accounted other :=
  h.adds ((ordinary_runPass hkind d).2.mono fun _ => .inr)

end Workspace
end Assembler6502
