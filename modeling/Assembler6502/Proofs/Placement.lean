import Assembler6502.Pass.Resolution
import Assembler6502.Proofs.Visibility

/-!
# Placement of labels

An update of labels that changes nothing has found every label with the value of its expression, and
all it can have done to the environment is to enter labels into further scopes, which nobody sees.
So the labels are settled on the layout of the program, before the update and behind it, and another
update changes nothing either.

## Main definitions

* `Environment.Settled`: every label has the value of its expression where it is defined
* `Environment.Walkable`: the layout of a program holds no fault

## Main results

* `Pass.updateLabels_cases`: what an update does at a statement, if it finds no fault there
* `Pass.quiet_updateLabels`: an update that changes nothing finds the labels settled
* `Pass.updateLabels_of_settled`: an update of settled labels changes nothing
-/

namespace Assembler6502

namespace Environment

/-- At every definition of a label, the label has the value of its expression. -/
def Settled (env : Environment) (leaves : List (Nat × Statement)) : Prop :=
  ∀ x ∈ env.layout leaves, ∀ symbol value, x.2.2.item = .label symbol value →
    ∃ v, value.evaluate x.1.valuation = .ok v ∧ x.1.lookup symbol = some v

/-- Every statement can be followed, and all scopes are closed in the end. -/
structure Walkable (env : Environment) (leaves : List (Nat × Statement)) : Prop where
  followable : ∀ x ∈ env.layout leaves, x.1.Followable x.2.2.item
  closed : (env.layoutEnd leaves).inner = []

/-- A nesting fits a layout if it admits the open scopes of every statement. -/
def Nested (ν : Nesting) (env : Environment) (leaves : List (Nat × Statement)) : Prop :=
  ∀ x ∈ env.layout leaves, ν.Admits x.1.inner

section Agrees

variable {ν : Nesting} {e f : Environment} {leaves : List (Nat × Statement)}

theorem Agrees.layout (h : Agrees ν e f) (hν : Nested ν e leaves) :
    Agrees ν (e.layoutEnd leaves) (f.layoutEnd leaves) ∧
      (∀ x ∈ e.layout leaves, ∃ y ∈ f.layout leaves, Agrees ν x.1 y.1 ∧ y.2 = x.2) ∧
      ∀ y ∈ f.layout leaves, ∃ x ∈ e.layout leaves, Agrees ν x.1 y.1 ∧ y.2 = x.2 :=
  lockstep h fun x hx _ _ _ hR => hR.follow (hν x hx) _

theorem Settled.congr (h : Agrees ν e f) (hν : Nested ν e leaves) (hs : e.Settled leaves) :
    f.Settled leaves := by
  intro y hy symbol value hitem
  obtain ⟨x, hx, hxy, heq⟩ := (h.layout hν).2.2 y hy
  rw [hxy.valuation (hν x hx), hxy.lookup (hν x hx)]
  exact hs x hx symbol value (heq ▸ hitem)

theorem Walkable.congr (h : Agrees ν e f) (hν : Nested ν e leaves) (hw : e.Walkable leaves) :
    f.Walkable leaves := by
  obtain ⟨hend, -, hback⟩ := h.layout hν
  refine ⟨fun y hy => ?_, hend.inner.trans hw.closed⟩
  obtain ⟨x, hx, hxy, heq⟩ := hback y hy
  rw [heq]
  exact hxy.followable (hν x hx) (hw.followable x hx)

end Agrees

end Environment

/-! ## Updates -/

namespace Pass

/-- What an update does at a statement, if it finds no fault there: a label is bound to the value of
its expression, which counts as a change if it had another one, and everything else is followed. -/
theorem updateLabels_cases {s : Sweep Unit} {l : Nat × Statement}
    (he : (Visit.step updateLabels s l).context.hasErrors = false) :
    s.context.hasErrors = false ∧ s.context.env.Followable l.2.item ∧
      ((∃ symbol value v, l.2.item = .label symbol value ∧ s.context.evaluate value = .ok v ∧
          (Visit.step updateLabels s l).context = s.context.mapEnv (·.bind symbol v) ∧
          (Visit.step updateLabels s l).changed =
            (s.changed || decide (s.context.env.lookup symbol ≠ some v))) ∨
        ((∀ symbol value, l.2.item ≠ .label symbol value) ∧
          Visit.step updateLabels s l = s.mapEnv (·.follow l.2.item))) := by
  obtain ⟨id, location, item⟩ := l
  cases item with
  | label symbol value =>
    have hvalue : (s.valueOf location value).2.context.hasErrors = false := by
      simp only [Visit.step, updateLabels, Visit.observe, Sweep.context_mapEnv,
        Context.hasErrors_mapEnv] at he
      split at he <;> exact he
    obtain ⟨hs, v, hv, hvo⟩ := Sweep.evaluate_of_valueOf hvalue
    refine ⟨hs, trivial, .inl ⟨symbol, value, v, rfl, hv, ?_, ?_⟩⟩ <;>
      by_cases h : s.context.env.lookup symbol = some v <;>
        simp [Visit.step, updateLabels, Visit.observe, hvo, h]
  | _ =>
    obtain ⟨hs, hf⟩ := Context.followable_of_follow he
    exact ⟨hs, hf, .inr ⟨by simp, Sweep.follow_eq hf⟩⟩

section Quiet

variable {ν : Nesting} {w : Workspace}

/-- What an update does at a statement, if it finds no fault there and counts no change: it was
quiet before, a label is bound to the value that it is seen with, and everything else is
followed. -/
theorem quiet_updateLabels_cases {s : Sweep Unit} {l : Nat × Statement}
    (h : (Visit.step updateLabels s l).Quiet) :
    s.Quiet ∧ s.context.env.Followable l.2.item ∧
      ((∃ symbol value v, l.2.item = .label symbol value ∧ s.context.evaluate value = .ok v ∧
          s.context.env.lookup symbol = some v ∧
          (Visit.step updateLabels s l).context = s.context.mapEnv (·.bind symbol v)) ∨
        ((∀ symbol value, l.2.item ≠ .label symbol value) ∧
          Visit.step updateLabels s l = s.mapEnv (·.follow l.2.item))) := by
  obtain ⟨hs, hf, ⟨symbol, value, v, hitem, hv, hcontext, hchanged⟩ | ⟨hne, hstep⟩⟩ :=
    updateLabels_cases h.clean
  · rw [h.unchanged] at hchanged
    obtain ⟨hunchanged, hlookup⟩ : s.changed = false ∧ s.context.env.lookup symbol = some v := by
      simpa using hchanged.symm
    exact ⟨⟨hs, hunchanged⟩, hf, .inl ⟨symbol, value, v, hitem, hv, hlookup, hcontext⟩⟩
  · rw [hstep] at h
    exact ⟨⟨hs, h.unchanged⟩, hf, .inr ⟨hne, hstep⟩⟩

theorem forall_quiet_updateLabels (h : (w.closing () updateLabels).Quiet) :
    ∀ x ∈ w.visits () updateLabels, (Visit.step updateLabels x.1 x.2).Quiet :=
  forall_reached_of_foldl (fun _ _ hs => (quiet_updateLabels_cases hs).1) h

/-- **A quiet update and the layout go in lockstep**: a label is bound to the value that it has. -/
theorem layout_of_quiet_updateLabels
    (hν : Environment.Nested ν w.context.env.restart w.program.leaves)
    (h : (w.closing () updateLabels).Quiet) :
    Environment.Agrees ν (w.closing () updateLabels).context.env
        (w.context.env.restart.layoutEnd w.program.leaves) ∧
      (∀ x ∈ w.visits () updateLabels, ∃ y ∈ w.context.env.restart.layout w.program.leaves,
        Environment.Agrees ν x.1.context.env y.1 ∧ y.2 = x.2) ∧
      ∀ y ∈ w.context.env.restart.layout w.program.leaves, ∃ x ∈ w.visits () updateLabels,
        Environment.Agrees ν x.1.context.env y.1 ∧ y.2 = x.2 := by
  -- Both walks see the same values: binding a label to the value that it has changes none.
  refine lockstep (R := fun (s : Sweep Unit) f => Environment.Agrees ν s.context.env f)
    (by simpa [Workspace.opening] using .refl ν _) ?_
  intro x hx y hy _ hR
  have hadm : ν.Admits x.1.context.env.inner := hR.inner ▸ hν y hy
  obtain ⟨-, -, ⟨symbol, value, v, hitem, -, hlookup, hcontext⟩ | ⟨-, hstep⟩⟩ :=
    quiet_updateLabels_cases (forall_quiet_updateLabels h x hx)
  · rw [hcontext, hitem]
    exact (Environment.agrees_bind hadm hlookup).trans hR
  · rw [hstep]
    exact hR.follow hadm _

/-- **An update that changes nothing** finds the labels settled on the layout of the program, and
leaves an environment that agrees with the one that it found. -/
theorem quiet_updateLabels (hν : Environment.Nested ν w.context.env.restart w.program.leaves)
    (he : (w.closing () updateLabels).context.restart.hasErrors = false)
    (hq : (w.closing () updateLabels).changed = false) :
    w.context.env.restart.Settled w.program.leaves ∧
      w.context.env.restart.Walkable w.program.leaves ∧
      Environment.Agrees ν w.context.env.restart
        (w.closing () updateLabels).context.env.restart := by
  obtain ⟨he, hclosed⟩ := Context.hasErrors_restart.mp he
  have hquiet := forall_quiet_updateLabels (Sweep.Quiet.mk he hq)
  obtain ⟨hend, -, hback⟩ := layout_of_quiet_updateLabels hν (Sweep.Quiet.mk he hq)
  refine ⟨?_, ⟨?_, hend.inner.trans hclosed⟩, ?_⟩
  -- Where a label is defined the update asked for its value and found nothing to change.
  · intro y hy symbol value hitem
    obtain ⟨x, hx, hR, heq⟩ := hback y hy
    have hadm : ν.Admits x.1.context.env.inner := hR.inner ▸ hν y hy
    rw [hR.valuation hadm, hR.lookup hadm]
    obtain ⟨-, -, ⟨symbol', value', v, hitem', hv, hlookup, -⟩ | ⟨hne, -⟩⟩ :=
      quiet_updateLabels_cases (hquiet x hx)
    · obtain ⟨rfl, rfl⟩ : symbol' = symbol ∧ value' = value := by
        rw [heq, hitem'] at hitem
        simpa using hitem
      exact ⟨v, hv, hlookup⟩
    · exact absurd (heq ▸ hitem) (hne symbol value)
  · intro y hy
    obtain ⟨x, hx, hR, heq⟩ := hback y hy
    rw [heq]
    exact hR.followable (hR.inner ▸ hν y hy) (quiet_updateLabels_cases (hquiet x hx)).2.1
  -- The layout leaves the labels alone, so behind it they are those from before.
  · have h := hend.restart.symm
    rwa [Environment.restart_layoutEnd, Environment.restart_restart] at h

theorem updateLabels_label {s : Sweep Unit} {l : Nat × Statement} {symbol : Symbol} {value : Expr}
    {v : Value} (hitem : l.2.item = .label symbol value) (hv : s.context.evaluate value = .ok v)
    (hlookup : s.context.env.lookup symbol = some v) :
    Visit.step updateLabels s l = s.mapEnv (·.bind symbol v) := by
  simp [Visit.step, updateLabels, Visit.observe, hitem, Sweep.valueOf_of_evaluate hv, hlookup]

theorem updateLabels_follow {s : Sweep Unit} {l : Nat × Statement}
    (hne : ∀ symbol value, l.2.item ≠ .label symbol value)
    (hf : s.context.env.Followable l.2.item) :
    Visit.step updateLabels s l = s.mapEnv (·.follow l.2.item) := by
  obtain ⟨id, location, item⟩ := l
  cases item with
  | label symbol value => exact absurd rfl (hne symbol value)
  | _ => exact Sweep.follow_eq hf

/-- **An update of settled labels** finds no fault and changes nothing. -/
theorem updateLabels_of_settled (hclean : w.context.restart.hasErrors = false)
    (hν : Environment.Nested ν w.context.env.restart w.program.leaves)
    (hs : w.context.env.restart.Settled w.program.leaves)
    (hw : w.context.env.restart.Walkable w.program.leaves) :
    (w.closing () updateLabels).context.restart.hasErrors = false ∧
      (w.closing () updateLabels).changed = false := by
  obtain ⟨⟨hend, hquiet⟩, -⟩ := lockstep (s := w.opening ()) (t := w.context.env.restart)
    (R := fun s f => Environment.Agrees ν s.context.env f ∧ s.Quiet)
    (f := Visit.step updateLabels) (g := fun env l => env.follow l.2.item)
    (l := w.program.leaves)
    ⟨by simpa [Workspace.opening] using .refl ν _, by simpa [Workspace.opening] using hclean, rfl⟩
    (by
      rintro x hx y hy heq ⟨hR, hq⟩
      have hadm : ν.Admits x.1.context.env.inner := hR.inner ▸ hν y hy
      -- A settled label is bound to the value that it has; everything else is followed.
      by_cases hlabel : ∃ symbol value, x.2.2.item = .label symbol value
      · obtain ⟨symbol, value, hitem⟩ := hlabel
        obtain ⟨v, hv, hlookup⟩ := hs y hy symbol value (heq ▸ hitem)
        rw [hR.valuation hadm] at hv
        rw [hR.lookup hadm] at hlookup
        rw [updateLabels_label hitem hv hlookup, hitem]
        exact ⟨(Environment.agrees_bind hadm hlookup).trans hR, hq.clean, hq.unchanged⟩
      · have hf : x.1.context.env.Followable x.2.2.item :=
          hR.symm.followable (hν y hy) (heq ▸ hw.followable y hy)
        rw [updateLabels_follow (by simpa using hlabel) hf]
        exact ⟨hR.follow hadm _, hq.clean, hq.unchanged⟩)
  refine ⟨Context.hasErrors_restart.mpr ⟨hquiet.clean, ?_⟩, hquiet.unchanged⟩
  exact hend.inner.symm.trans hw.closed

end Quiet

end Pass
end Assembler6502
