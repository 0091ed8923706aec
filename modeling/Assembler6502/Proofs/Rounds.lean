import Assembler6502.Assembly
import Assembler6502.Proofs.Layout

/-!
# Rounds of stages

Nothing runs behind a fault, so a stage that ends without a fault began without one, and so did
every pass of it. A group that ends without a fault has not run out of rounds: its last round
reported no change, and what the group returns is what that round returns.

## Main definitions

* `Workspace.Clean`: no fault was found so far
* `Pass.Kind.visit?`: the visit of a pass that keeps nothing in mind
* `Stage.Still`: a stage that keeps a property and reports no change

## Main results

* `Workspace.runPass_of_visit`: a pass that keeps nothing in mind is a sweep
* `Workspace.iterate_exit`: the last round of a group that ends without a fault
* `Workspace.kept_iterate`: what every round of a group keeps
* `Stage.run_fixpoint_of_unchanged`: a group whose first round reports no change has one round
* `Stage.Still.fixpoint`, `Stage.Still.runStages`: groups and lists of stages that stand still
-/

namespace Assembler6502

/-- The visit of a pass that keeps nothing in mind. -/
def Pass.Kind.visit? : Pass.Kind → Option (Visit Unit)
  | .expandMacros => some Pass.expandMacros
  | .checkExpressions => some Pass.checkExpressions
  | .easyModes => some Pass.easyModes
  | .updateLabels => some Pass.updateLabels
  | .collapse => some Pass.collapse
  | .extendBranches => some Pass.extendBranches
  | .normalizeModes => some Pass.normalizeModes
  | .defineMacros | .initLabels | .checkCircularity | .emit => none

namespace Pass

theorem visit?_expandMacros : Kind.expandMacros.visit? = some expandMacros := rfl

theorem visit?_updateLabels : Kind.updateLabels.visit? = some updateLabels := rfl

theorem visit?_collapse : Kind.collapse.visit? = some collapse := rfl

theorem visit?_extendBranches : Kind.extendBranches.visit? = some extendBranches := rfl

theorem visit?_normalizeModes : Kind.normalizeModes.visit? = some normalizeModes := rfl

end Pass

/-! ## Statements without structure -/

/-- The item is no scope, segment, macro or call. -/
def Item.Simple : Item → Prop
  | .instruction _ | .data _ _ _ | .byteRange _ _ _ | .label _ _ | .setPc _ | .advance _ _
  | .checkPc _ => True
  | _ => False

section Simple

variable {st : Statement} {id : Nat}

theorem Context.followStructure?_simple (h : st.item.Simple) (c : Context) :
    c.followStructure? st = none := by
  obtain ⟨location, item⟩ := st
  cases item with
  | instruction | data | byteRange | label | setPc | advance | checkPc => rfl
  | _ => cases h

/-- Passes that only follow scopes and segments leave a simple statement alone. -/
theorem Sweep.followStructure_simple {μ : Type} (h : st.item.Simple) (s : Sweep μ) :
    s.mapContext (·.followStructure st) = s := by
  rw [Sweep.mapContext, Context.followStructure, Context.followStructure?_simple h]
  rfl

theorem Pass.defineMacros_simple {s : Sweep Bool} (h : st.item.Simple)
    (hs : s.context.macros.isDefining = false) : defineMacros s id st = (s, .leaf id st) := by
  have hstructure := Sweep.followStructure_simple h s
  obtain ⟨location, item⟩ := st
  cases item with
  | macroBegin | macroEnd => cases h
  | _ => simp only [defineMacros, hs, hstructure, Bool.false_eq_true, if_false]

theorem Pass.expandMacros_simple {s : Sweep Unit} (h : st.item.Simple) :
    expandMacros s id st = (s, .leaf id st) := by
  have hstructure := Sweep.followStructure_simple h s
  obtain ⟨location, item⟩ := st
  cases item with
  | invoke => cases h
  | _ => simp only [expandMacros, hstructure]

end Simple

namespace Workspace

variable {π : Type}

/-- No fault was found so far. -/
def Clean (w : Workspace π) : Prop :=
  w.context.hasErrors = false

/-! ## Passes -/

section Passes

variable {w : Workspace} {kind : Pass.Kind} {d : Discovery}

theorem clean_of_runPass [Sweepable π] {w : Workspace π} (h : (w.runPass kind d).1.Clean) :
    w.Clean := by
  by_cases he : w.context.hasErrors = true
  · simpa [runPass, he] using h
  · exact Bool.eq_false_iff.mpr he

theorem runPass_of_visit {visit : Visit Unit} (hv : kind.visit? = some visit) (h : w.Clean) :
    w.runPass kind d = ((w.sweep () visit id).1, (w.sweep () visit id).2.1, d) := by
  have he : ¬ w.context.hasErrors = true := Bool.eq_false_iff.mp h
  cases kind <;> cases hv <;> exact if_neg he

theorem runPass_defineMacros (h : w.Clean) :
    (w.runPass .defineMacros d).1 = (w.sweep false Pass.defineMacros Pass.closeDefinition).1 := by
  have he : ¬ w.context.hasErrors = true := Bool.eq_false_iff.mp h
  exact congrArg Prod.fst (if_neg he)

theorem runPass_initLabels (h : w.Clean) :
    w.runPass .initLabels d = w.sweep d.nextRound Pass.initLabels id := by
  have he : ¬ w.context.hasErrors = true := Bool.eq_false_iff.mp h
  exact if_neg he

theorem runPass_checkCircularity (h : w.Clean) :
    (w.runPass .checkCircularity d).1 = (w.sweep true Pass.checkCircularity id).1 := by
  have he : ¬ w.context.hasErrors = true := Bool.eq_false_iff.mp h
  exact congrArg Prod.fst (if_neg he)

/-- Nothing happens once there is a fault, so a pass keeps what it keeps where there is none. -/
theorem kept_runPass {I : Workspace → Prop} (hI : w.Clean → I (w.runPass kind d).1) (hw : I w) :
    I (w.runPass kind d).1 := by
  by_cases hclean : w.Clean
  · exact hI hclean
  · have he : w.context.hasErrors = true := by simpa [Clean] using hclean
    simpa [runPass, he] using hw

end Passes

/-! ## Groups -/

section Groups

variable {name : String} {round : Round π} {rounds : Nat} {changed : Bool}
  {w : Workspace π} {m : List Stage.Memory}

theorem clean_of_iterate (h : (iterate name round rounds changed w m).1.Clean) : w.Clean := by
  cases rounds with
  | zero => exact absurd h (by simp [iterate, Clean])
  | succ rounds =>
    by_cases hw : w.context.hasErrors = true
    · simpa [iterate, hw] using h
    · exact Bool.eq_false_iff.mpr hw

/-- A group goes on behind a round if the round found no fault and reported a change. -/
theorem iterate_succ (hw : w.Clean) :
    iterate name round (rounds + 1) changed w m =
      if (round w m).1.context.hasErrors || !(round w m).2.1 then
        ((round w m).1, changed, (round w m).2.2)
      else iterate name round rounds true (round w m).1 (round w m).2.2 := by
  rw [iterate, if_neg (Bool.eq_false_iff.mp hw)]

/-- **A group that ends without a fault** returns what its last round returns, and that round, which
began without a fault, reported no change. -/
theorem iterate_exit (h : (iterate name round rounds changed w m).1.Clean) :
    ∃ v k, v.Clean ∧ (round v k).1 = (iterate name round rounds changed w m).1 ∧
      (round v k).2.1 = false := by
  induction rounds generalizing changed w m with
  | zero => exact absurd h (by simp [iterate, Clean])
  | succ rounds ih =>
    have hw := clean_of_iterate h
    rw [iterate_succ hw] at h ⊢
    split at h
    -- The round was the last one: as it found no fault, it reported no change.
    · rename_i hr
      rw [if_pos hr]
      have hq : (round w m).2.1 = false := by
        simpa [show (round w m).1.context.hasErrors = false from h] using hr
      exact ⟨w, m, hw, rfl, hq⟩
    · rename_i hr
      rw [if_neg hr]
      exact ih h

theorem iterate_of_unchanged (hw : w.Clean) (hr : (round w m).2.1 = false) :
    iterate name round (rounds + 1) changed w m = ((round w m).1, changed, (round w m).2.2) := by
  rw [iterate_succ hw, if_pos (by simp [hr])]

/-- A group returns what its first round returns, if a second round would find nothing to change. -/
theorem iterate_of_settled {k : List Stage.Memory} (hw : w.Clean) (hclean : (round w m).1.Clean)
    (hnext : round (round w m).1 (round w m).2.2 = ((round w m).1, false, k)) :
    (iterate name round (rounds + 2) changed w m).1 = (round w m).1 := by
  rw [iterate_succ hw]
  split
  · rfl
  · rw [iterate_of_unchanged hclean (by rw [hnext]), hnext]

/-- **What every round keeps** holds of the workspace and of what is in mind when a group ends. -/
theorem kept_iterate {A : Workspace π → List Stage.Memory → Prop}
    (hround : ∀ {w ms}, w.Clean → A w ms → A (round w ms).1 (round w ms).2.2)
    (hend : ∀ {w ms}, A w ms →
      A { w with context := w.context.error .topLevel (.pass (.noConvergence name)) } ms)
    (rounds : Nat) (changed : Bool) {w : Workspace π} {ms : List Stage.Memory} (h : A w ms) :
    A (iterate name round rounds changed w ms).1 (iterate name round rounds changed w ms).2.2 := by
  induction rounds generalizing changed w ms with
  | zero => exact hend h
  | succ rounds ih =>
    by_cases hw : w.context.hasErrors = true
    · simpa only [iterate, if_pos hw] using h
    · have hw : w.Clean := Bool.eq_false_iff.mpr hw
      rw [iterate_succ hw]
      split
      · exact hround hw h
      · exact ih true (hround hw h)

/-- **Two groups in lockstep** have the same rounds if every round keeps a relation under which both
have faults or none, and reports a change on both sides or on none. -/
theorem iterate_lockstep {ρ : Type}
    {A : Workspace π → List Stage.Memory → Workspace ρ → List Stage.Memory → Prop}
    {round' : Round ρ}
    (hfaults : ∀ {w m w' m'}, A w m w' m' → w.context.hasErrors = w'.context.hasErrors)
    (hround : ∀ {w m w' m'}, A w m w' m' →
      A (round w m).1 (round w m).2.2 (round' w' m').1 (round' w' m').2.2 ∧
        (round w m).2.1 = (round' w' m').2.1)
    (hend : ∀ {w m w' m'}, A w m w' m' →
      A { w with context := w.context.error .topLevel (.pass (.noConvergence name)) } m
        { w' with context := w'.context.error .topLevel (.pass (.noConvergence name)) } m')
    (rounds : Nat) (changed : Bool) {w : Workspace π} {w' : Workspace ρ}
    {m m' : List Stage.Memory} (h : A w m w' m') :
    A (iterate name round rounds changed w m).1 (iterate name round rounds changed w m).2.2
        (iterate name round' rounds changed w' m').1
        (iterate name round' rounds changed w' m').2.2 ∧
      (iterate name round rounds changed w m).2.1 =
        (iterate name round' rounds changed w' m').2.1 := by
  induction rounds generalizing changed w w' m m' with
  | zero => exact ⟨hend h, rfl⟩
  | succ rounds ih =>
    -- Both stop at a fault or behind a round without a change, or both go on.
    obtain ⟨hnext, hchanged⟩ := hround h
    simp only [iterate, ← hfaults h, ← hfaults hnext, ← hchanged]
    split
    · exact ⟨h, rfl⟩
    · split
      · exact ⟨hnext, rfl⟩
      · exact ih true hnext

end Groups

end Workspace

namespace Stage

variable {π : Type} [Sweepable π] {stage : Stage} {kind : Pass.Kind} {name : String}
  {stages : List Stage} {rounds : Nat} {w : Workspace π} {m : Memory} {ms : List Memory}

/-! ## Stages -/

@[simp] theorem run_pass : ((pass kind).run w m).1 = (w.runPass kind m.discovery).1 := by
  simp only [run]

@[simp] theorem changed_run_pass :
    ((pass kind).run w m).2.1 = (w.runPass kind m.discovery).2.1 := by
  simp only [run]

@[simp] theorem run_fixpoint :
    ((fixpoint name stages rounds).run w m).1 =
      (Workspace.iterate name (fun w ms => runAll stages w ms) rounds false w m.members).1 := by
  simp only [run]

theorem run_fixpoint_of_unchanged (hw : w.Clean) (h : (runAll stages w m.members).2.1 = false) :
    ((fixpoint name stages (rounds + 1)).run w m).1 = (runAll stages w m.members).1 := by
  rw [run_fixpoint, Workspace.iterate_of_unchanged hw h]

theorem clean_of_run (h : (stage.run w m).1.Clean) : w.Clean := by
  cases stage with
  | pass kind =>
    rw [run_pass] at h
    exact Workspace.clean_of_runPass h
  | fixpoint name stages rounds =>
    rw [run_fixpoint] at h
    exact Workspace.clean_of_iterate h

theorem fst_go : (stage.go w).1 = (stage.run w .fresh).1 := rfl

theorem clean_of_go (h : (stage.go w).1.Clean) : w.Clean :=
  clean_of_run (m := .fresh) h

theorem runAll_single :
    (runAll [stage] w ms).1 = (stage.run w (ms.headD .fresh)).1 ∧
      (runAll [stage] w ms).2.1 = (stage.run w (ms.headD .fresh)).2.1 := by
  simp [runAll]

theorem runAll_pair {other : Stage} :
    (runAll [stage, other] w ms).1 =
        (other.run (stage.run w (ms.headD .fresh)).1 (ms.tail.headD .fresh)).1 ∧
      (runAll [stage, other] w ms).2.1 =
        (other.run (stage.run w (ms.headD .fresh)).1 (ms.tail.headD .fresh)).2.1 := by
  simp [runAll]

/-! ## Stages that stand still -/

section Still

variable {H : Workspace π → Prop}

/-- The stage keeps a property of workspaces and reports no change. -/
def Still (H : Workspace π → Prop) (stage : Stage) : Prop :=
  ∀ w m, H w → H (stage.run w m).1 ∧ (stage.run w m).2.1 = false

theorem Still.pass {kind : Pass.Kind}
    (h : ∀ w d, H w → H (w.runPass kind d).1 ∧ (w.runPass kind d).2.1 = false) :
    (Stage.pass kind).Still H := by
  intro w m hw
  rw [run_pass, changed_run_pass]
  exact h w m.discovery hw

theorem Still.runAll : ∀ {stages : List Stage}, (∀ stage ∈ stages, stage.Still H) →
    ∀ w ms, H w → H (Stage.runAll stages w ms).1 ∧ (Stage.runAll stages w ms).2.1 = false
  | [], _, w, ms, hw => ⟨hw, rfl⟩
  | [stage], h, w, ms, hw => by
    rw [runAll_single.1, runAll_single.2]
    exact h stage List.mem_cons_self w _ hw
  | stage :: other :: rest, h, w, ms, hw => by
    obtain ⟨hstage, hrest⟩ := List.forall_mem_cons.1 h
    have hkept := Still.runAll hrest (stage.run w (ms.headD .fresh)).1 ms.tail
      (hstage w _ hw).1
    simpa only [Stage.runAll] using hkept

/-- A group of stages that keep a property and report no change has one round. -/
theorem Still.fixpoint {name : String} {stages : List Stage} {rounds : Nat}
    (hH : ∀ w, H w → w.Clean) (h : ∀ stage ∈ stages, stage.Still H) :
    (Stage.fixpoint name stages (rounds + 1)).Still H := by
  intro w m hw
  obtain ⟨hkept, hquiet⟩ := Still.runAll h w m.members hw
  refine ⟨by rwa [run_fixpoint_of_unchanged (hH w hw) hquiet], ?_⟩
  show (Workspace.iterate name (fun w ms => Stage.runAll stages w ms) (rounds + 1) false w
    m.members).2.1 = false
  rw [Workspace.iterate_of_unchanged (hH w hw) hquiet]

/-- A group of two stages has one round if the second one stands still behind the first one. -/
theorem Still.run_pair {name : String} {other : Stage} {w' : Workspace π} {rounds : Nat}
    (hw : w.Clean) (hfirst : (stage.run w (m.members.headD .fresh)).1 = w')
    (hother : other.Still (· = w')) :
    ((Stage.fixpoint name [stage, other] (rounds + 1)).run w m).1 = w' := by
  obtain ⟨hkept, hquiet⟩ := hother w' (m.members.tail.headD .fresh) rfl
  have hround : (Stage.runAll [stage, other] w m.members).2.1 = false := by
    rw [runAll_pair.2, hfirst, hquiet]
  rw [run_fixpoint_of_unchanged hw hround, runAll_pair.1, hfirst, hkept]

theorem Still.runStages {stages : List Stage} (h : ∀ stage ∈ stages, stage.Still H) (hw : H w) :
    H (Assembly.runStages stages w) := by
  induction stages generalizing w with
  | nil => exact hw
  | cons stage stages ih =>
    obtain ⟨hstage, hstages⟩ := List.forall_mem_cons.1 h
    exact ih hstages (hstage w .fresh hw).1

end Still

end Stage
end Assembler6502
