import Assembler6502.Proofs.History

/-!
# Nothing happens behind a fault

Whether there is a fault is asked in two places: before every pass, and before and behind every
round of a group. Both ask the same, so they agree on what comes after a fault: a stage that is
given one returns what it was given, with nothing changed and nothing more in mind. A pass that
finds a fault is therefore the last one that does anything, however deep it stands inside of groups,
and what it leaves is what assembling returns.

A group without any round would complain that it has none, whatever it is given, so groups are
asked to have at least one.

## Main definitions

* `Stage.runnable`: every group of a stage may go a round

## Main results

* `Stage.run_of_fault`: a stage that is given a fault
* `Stage.run_of_faulty_entry`: a stage in which a pass finds a fault
* `Assembly.ofProgram_of_fault`: a program that comes with a fault
* `Assembly.nothing_behind_a_fault`: faults stop everything
-/

namespace Assembler6502

variable {π : Type} [Sweepable π]

namespace Workspace

variable {w : Workspace π}

theorem runPass_of_fault (hw : w.context.hasErrors = true) (kind : Pass.Kind) (d : Discovery) :
    w.runPass kind d = (w, false, d) :=
  if_pos hw

theorem emit_of_fault (hw : w.context.hasErrors = true) : w.emit = (w, false, {}) :=
  if_pos hw

omit [Sweepable π] in
theorem iterate_of_fault (hw : w.context.hasErrors = true) {rounds : Nat} (hrounds : 0 < rounds)
    (name : String) (round : Round π) (changed : Bool) (m : List Stage.Memory) :
    iterate name round rounds changed w m = (w, changed, m) := by
  cases rounds with
  | zero => exact absurd hrounds (Nat.lt_irrefl 0)
  | succ rounds => exact if_pos hw

end Workspace

namespace Stage

mutual

/-- Every group of the stage may go a round. -/
def runnable : Stage → Bool
  | pass _ => true
  | fixpoint _ stages rounds => decide (0 < rounds) && allRunnable stages

/-- Every group of some stages may go a round. -/
def allRunnable : List Stage → Bool
  | [] => true
  | stage :: rest => runnable stage && allRunnable rest

end

theorem allRunnable_cons {stage : Stage} {rest : List Stage} :
    allRunnable (stage :: rest) = true ↔ stage.runnable = true ∧ allRunnable rest = true := by
  rw [allRunnable, Bool.and_eq_true]

theorem allRunnable_pipeline (extend : Bool) : allRunnable (pipeline extend) = true := by
  cases extend <;> decide

/-! ## Stages that are given a fault -/

variable {stage : Stage} {stages : List Stage} {w : Workspace π}

/-- What a stage keeps in mind is nothing else than before, if it does the same whatever it is given
next. -/
def Recalls (stage : Stage) (m m' : Memory) : Prop :=
  ∀ {π : Type} [Sweepable π] (v : Workspace π), stage.run v m' = stage.run v m

/-- **A stage that is given a fault** returns what it was given, reports no change and keeps in mind
what it had in mind. -/
theorem run_of_fault (hstage : stage.runnable = true) (hw : w.context.hasErrors = true)
    (m : Memory) :
    (stage.run w m).1 = w ∧ (stage.run w m).2.1 = false ∧
      stage.Recalls m (stage.run w m).2.2 := by
  cases stage with
  | pass kind =>
    have hpass := Workspace.runPass_of_fault hw kind m.discovery
    simp only [run, hpass]
    refine ⟨trivial, trivial, fun {_ _} v => ?_⟩
    simp only [run]
    rfl
  | fixpoint name stages rounds =>
    rw [runnable, Bool.and_eq_true, decide_eq_true_eq] at hstage
    have hgroup := Workspace.iterate_of_fault hw hstage.1 name
      (fun w ms => runAll stages w ms) false m.members
    simp only [run, hgroup]
    refine ⟨trivial, trivial, fun {_ _} v => ?_⟩
    simp only [run]
    rfl

/-- The stages behind a fault return what they are given, too. -/
theorem runAll_of_fault (hstages : allRunnable stages = true) (hw : w.context.hasErrors = true)
    (ms : List Memory) : (runAll stages w ms).1 = w ∧ (runAll stages w ms).2.1 = false := by
  induction stages generalizing ms with
  | nil => exact ⟨rfl, rfl⟩
  | cons stage rest ih =>
    obtain ⟨hstage, hrest⟩ := allRunnable_cons.mp hstages
    obtain ⟨hfirst, hunchanged, -⟩ := run_of_fault hstage hw (ms.headD .fresh)
    -- The last stage of a list has a rule of its own.
    cases rest with
    | nil =>
      rw [runAll_single.1, runAll_single.2]
      exact ⟨hfirst, hunchanged⟩
    | cons other rest =>
      simp only [runAll, hfirst]
      exact ih hrest ms.tail

/-! ## Stages in which a fault is found -/

omit [Sweepable π] in
/-- The rounds of a group end with the round in which a fault is found. -/
theorem iterate_of_faulty_entry {name : String} {round : Workspace.Round π}
    {history : Workspace π → List Memory → List (Entry π)}
    (hround : ∀ w m, ∀ entry ∈ history w m, entry.after.context.hasErrors = true →
      (round w m).1 = entry.after) (rounds : Nat) (changed : Bool) (w : Workspace π)
    (m : List Memory) :
    ∀ entry ∈ Workspace.iterateHistory round history rounds w m,
      entry.after.context.hasErrors = true →
        (Workspace.iterate name round rounds changed w m).1 = entry.after := by
  induction rounds generalizing changed w m with
  | zero =>
    intro entry hentry
    cases hentry
  | succ rounds ih =>
    intro entry hentry hfault
    rw [Workspace.iterateHistory] at hentry
    split at hentry
    · cases hentry
    · rename_i hclean
      rw [Workspace.iterate_succ (Bool.eq_false_iff.mpr hclean)]
      rcases List.mem_append.mp hentry with hentry | hentry
      -- A fault of this round is still there at its end, so there is no other round.
      · have hlast := hround w m entry hentry hfault
        rw [hlast, hfault, Bool.true_or, if_pos rfl]
      · split at hentry
        · cases hentry
        · rename_i hnext
          rw [if_neg hnext]
          exact ih true _ _ entry hentry hfault

mutual

/-- **A stage in which a pass finds a fault** returns what that pass leaves. -/
theorem run_of_faulty_entry : ∀ (stage : Stage), stage.runnable = true →
    ∀ (w : Workspace π) (m : Memory), ∀ entry ∈ stage.history w m,
      entry.after.context.hasErrors = true → (stage.run w m).1 = entry.after
  | pass kind, _, w, m => by
    intro entry hentry _
    rw [history, List.mem_singleton] at hentry
    rw [run_pass, hentry]
  | fixpoint name stages rounds, hstage, w, m => by
    rw [runnable, Bool.and_eq_true] at hstage
    rw [run_fixpoint, history]
    exact iterate_of_faulty_entry (fun w ms => runAll_of_faulty_entry stages hstage.2 w ms) rounds
      false w m.members

theorem runAll_of_faulty_entry : ∀ (stages : List Stage), allRunnable stages = true →
    ∀ (w : Workspace π) (ms : List Memory), ∀ entry ∈ historyAll stages w ms,
      entry.after.context.hasErrors = true → (runAll stages w ms).1 = entry.after
  | [], _, w, ms => by
    intro entry hentry
    rw [historyAll] at hentry
    cases hentry
  | [stage], hstages, w, ms => by
    intro entry hentry
    simp only [historyAll, List.append_nil] at hentry
    rw [runAll_single.1]
    exact run_of_faulty_entry stage (allRunnable_cons.mp hstages).1 w _ entry hentry
  | stage :: other :: rest, hstages, w, ms => by
    obtain ⟨hstage, hrest⟩ := allRunnable_cons.mp hstages
    intro entry hentry hfault
    rw [historyAll] at hentry
    rw [runAll]
    rcases List.mem_append.mp hentry with hentry | hentry
    -- Either the first stage returns the fault, and the others leave it alone, or they find it.
    · have hfirst := run_of_faulty_entry stage hstage w _ entry hentry hfault
      simp only [hfirst]
      exact (runAll_of_fault hrest hfault _).1
    · exact runAll_of_faulty_entry (other :: rest) hrest _ _ entry hentry hfault

end

end Stage

/-! ## Assembling -/

namespace Assembly

/-- Stages that are run one after the other are run as the members of a group are. -/
theorem runStages_eq_runAll (stages : List Stage) (w : Workspace π) :
    runStages stages w = (Stage.runAll stages w []).1 := by
  induction stages generalizing w with
  | nil => rfl
  | cons stage rest ih =>
    rw [runStages, List.foldl_cons, ← runStages, ih]
    cases rest with
    | nil => rw [Stage.runAll_single.1]; rfl
    | cons other rest => rw [Stage.runAll.eq_def (stage :: _)]; rfl

theorem runStages_of_fault {stages : List Stage} {w : Workspace π}
    (hstages : Stage.allRunnable stages = true) (hw : w.context.hasErrors = true) :
    runStages stages w = w := by
  rw [runStages_eq_runAll]
  exact (Stage.runAll_of_fault hstages hw []).1

variable {options : Options} {program : π} {diagnostics : Diagnostics}

theorem ofProgram_of_stages {w : Workspace π}
    (h : runStages (Stage.pipeline options.branchExtend) (start options program diagnostics) = w)
    (hw : w.context.hasErrors = true) :
    ofProgram options program diagnostics = ⟨{}, w.context.diagnostics, w.context.env⟩ := by
  simp only [ofProgram, h, Workspace.emit_of_fault hw]

/-- **A program that comes with a fault** is not assembled at all. -/
theorem ofProgram_of_fault (h : diagnostics.hasErrors = true) :
    ofProgram options program diagnostics = ⟨{}, diagnostics, {}⟩ := by
  have hstart : (start options program diagnostics).context.hasErrors = true := h
  rw [ofProgram_of_stages (runStages_of_fault (Stage.allRunnable_pipeline _) hstart) hstart]
  rfl

/-- **Faults stop everything.** A stage that is given a fault, be it a pass or a group of groups,
returns what it was given: the program, the environment, the macros, the faults and the warnings. It
reports no change and keeps in mind what it had in mind, and the last pass writes nothing. So does
everything behind a pass that finds a fault, in whatever stage and in whatever round. Hence a
program that comes with faults is assembled to an empty image, with what it came with and no labels;
and a program in which a pass finds a fault is assembled to an empty image, with what that pass
leaves. -/
theorem nothing_behind_a_fault (stage : Stage) (hstage : stage.runnable = true) (options : Options)
    (program : π) (diagnostics : Diagnostics) :
    (∀ (w : Workspace π) m, w.context.hasErrors = true →
        (stage.run w m).1 = w ∧ (stage.run w m).2.1 = false ∧
          stage.Recalls m (stage.run w m).2.2 ∧ w.emit = (w, false, {})) ∧
      (∀ (w : Workspace π) m, ∀ entry ∈ stage.history w m, entry.after.context.hasErrors = true →
        (stage.run w m).1 = entry.after) ∧
      (diagnostics.hasErrors = true →
        ofProgram options program diagnostics = ⟨{}, diagnostics, {}⟩) ∧
      ∀ entry ∈ Stage.historyAll (Stage.pipeline options.branchExtend)
          (start options program diagnostics) [],
        entry.after.context.hasErrors = true →
          ofProgram options program diagnostics =
            ⟨{}, entry.after.context.diagnostics, entry.after.context.env⟩ := by
  refine ⟨fun w m hw => ?_, Stage.run_of_faulty_entry stage hstage, ofProgram_of_fault,
    fun entry hentry hfault => ?_⟩
  · obtain ⟨hsame, hunchanged, hrecalls⟩ := Stage.run_of_fault hstage hw m
    exact ⟨hsame, hunchanged, hrecalls, Workspace.emit_of_fault hw⟩
  · have hpipeline := Stage.runAll_of_faulty_entry _ (Stage.allRunnable_pipeline _) _ [] entry
      hentry hfault
    rw [← runStages_eq_runAll] at hpipeline
    exact ofProgram_of_stages hpipeline hfault

/-- A division by zero that is found when labels are placed, in a group inside of two others. -/
def lateDivision : Program :=
  ⟨[.leaf 1 ⟨.topLevel, .label (.global "five") (.constant 5)⟩,
    .leaf 2 ⟨.topLevel, .label (.global "none")
      (.chain (.constant 10) [(.divide, .chain (.symbol (.global "five"))
        [(.subtract, .constant 5)])])⟩], 3⟩

theorem nothing_behind_a_fault_lateDivision :
    let faulty := (Stage.historyAll (Stage.pipeline true) (start {} lateDivision {}) []).filter
      (·.after.context.hasErrors)
    (Stage.selection true).runnable = true ∧
      faulty.map (·.kind) =
        [.updateLabels, .collapse, .extendBranches, .normalizeModes, .updateLabels] ∧
      ∀ entry ∈ faulty,
        (Stage.selection true).go entry.after = (entry.after, false) ∧
          ofProgram {} lateDivision {} =
            ⟨{}, entry.after.context.diagnostics, entry.after.context.env⟩ := by
  have hrunnable : (Stage.selection true).runnable = true := by decide
  obtain ⟨hstill, -, -, hlast⟩ :=
    nothing_behind_a_fault (Stage.selection true) hrunnable {} lateDivision {}
  refine ⟨hrunnable, by decide +kernel, fun entry hentry => ?_⟩
  obtain ⟨hentry, hfault⟩ := List.mem_filter.mp hentry
  obtain ⟨hsame, hunchanged, -⟩ := hstill entry.after .fresh hfault
  exact ⟨Prod.ext hsame hunchanged, hlast entry hentry hfault⟩

end Assembly
end Assembler6502
