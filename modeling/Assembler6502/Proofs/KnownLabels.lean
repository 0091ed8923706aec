import Assembler6502.Proofs.Convergence
import Assembler6502.Proofs.Faithfulness
import Assembler6502.Proofs.History

/-!
# Labels that are missed

Trying every expression once, before anything has an address, finds every label that is missed:
if there is none, then no pass that comes later misses a label, whatever else it finds wrong. The
expressions that later passes ask for are those that were tried, or distances from the program
counter; they are asked for in the same scopes; and there they see all the labels that they saw.

## Main definitions

* `Workspace.Resolved`: every expression sees its labels in the scopes where it stands
* `Context.MissesNoLabel`: no fault is about a label without a value

## Main results

* `Workspace.Resolved.sweep`: a faithful pass keeps a program resolved
* `Workspace.resolved_checkExpressions`: trying all expressions without a fault resolves a program
* `Assembly.no_label_missed`: what the trial does not miss is not missed later
-/

namespace Assembler6502

namespace Context

variable {c d : Context}

/-- No fault is about a label without a value. -/
def MissesNoLabel (c : Context) : Prop :=
  ∀ fault ∈ c.diagnostics.errors, ∀ symbol, fault.value ≠ .evaluation (.unknownLabel symbol)

theorem MissesNoLabel.of_clean (h : c.hasErrors = false) : c.MissesNoLabel := by
  simp [MissesNoLabel, hasErrors_eq_false.mp h]

theorem MissesNoLabel.adds (hc : c.MissesNoLabel)
    (h : Adds (fun fault => ∀ symbol, fault ≠ .evaluation (.unknownLabel symbol)) c d) :
    d.MissesNoLabel := by
  obtain ⟨added, hadded, hP⟩ := h
  intro fault hfault symbol hvalue
  rw [hadded] at hfault
  rcases List.mem_append.mp hfault with hfault | hfault
  · exact hc fault hfault symbol hvalue
  · exact hP fault hfault symbol hvalue

end Context

/-! ## Trying all expressions -/

namespace Pass

theorem checkExpressions_of_clean {c : Context} {location : Location} {es : List Expr}
    (h : (es.foldl (checkExpression location) c).hasErrors = false) :
    c.hasErrors = false ∧ ∀ e ∈ es, ∃ v, c.evaluate e = .ok v := by
  induction es generalizing c with
  | nil => exact ⟨h, by simp⟩
  | cons e rest ih =>
    obtain ⟨hfirst, hrest⟩ := ih h
    -- Without a value there would be a fault, and with one nothing changes.
    cases hv : c.evaluate e with
    | error err => simp [checkExpression, hv] at hfirst
    | ok v =>
      have hsame : checkExpression location c e = c := by simp [checkExpression, hv]
      rw [hsame] at hfirst hrest
      exact ⟨hfirst, List.forall_mem_cons.mpr ⟨⟨v, hv⟩, hrest⟩⟩

/-- Where the trial finds no fault, there was none, and every expression has a value. -/
theorem checkExpressions_step_of_clean {s : Sweep Unit} {l : Nat × Statement}
    (h : (Visit.step checkExpressions s l).context.hasErrors = false) :
    s.context.hasErrors = false ∧
      ∀ e ∈ l.2.item.expressions, ∃ v, s.context.evaluate e = .ok v := by
  obtain ⟨id, location, item⟩ := l
  cases item with
  | scopeEnd =>
    cases hi : s.context.env.inner <;>
      simp_all [Visit.step, checkExpressions, Visit.observe, Context.followStructure?,
        Environment.exitScope?, Item.expressions]
    exact h
  | blank | textSegment name | dataSegment name | scopeBegin =>
    exact ⟨h, by simp [Item.expressions]⟩
  | _ => exact @checkExpressions_of_clean _ location _ h

end Pass

namespace Workspace

variable {μ : Type} {w : Workspace} {memory : μ} {visit : Visit μ}

/-! ## Resolved programs -/

/-- Every expression of the program sees its labels in the scopes where it stands. -/
def Resolved (w : Workspace) : Prop :=
  ∀ y ∈ ScopeState.along w.program.leaves, ∀ e ∈ y.2.2.item.expressions,
    e.isValid (w.context.env.valuationIn y.1.inner) true = true

/-- In a resolved program, an expression that lacks a value where a faithful pass reaches it lacks
no label. -/
theorem Resolved.finds_ne (h : w.Resolved) (hv : visit.Faithful)
    {x : Sweep μ × Nat × Statement} (hx : x ∈ w.visits memory visit) (fault : Fault)
    (hfinds : x.1.context.Finds (fun _ => True) x.2.2.item fault) :
    ∀ symbol, fault ≠ .evaluation (.unknownLabel symbol) := by
  rintro symbol rfl
  obtain ⟨e, he, herr⟩ := hfinds
  obtain ⟨halong, hgrows⟩ := along_of_visits hv hx
  have hvalid : e.isValid x.1.context.env.valuation true = true := by
    rw [Environment.isValid_valuation]
    exact hgrows.isValid (h _ halong e he)
  exact Expr.evaluate_ne_unknownLabel hvalid symbol herr

theorem isValid_pcPlus (ν : Valuation) (k : Value) : (Expr.pcPlus k).isValid ν true = true := rfl

/-- **A faithful pass keeps a program resolved**, and misses no label. -/
theorem Resolved.sweep (h : w.Resolved) (hv : visit.Faithful) :
    (w.sweep memory visit id).1.Resolved ∧
      (w.context.MissesNoLabel → (w.sweep memory visit id).1.context.MissesNoLabel) := by
  refine ⟨fun y hy e he => ?_, fun hc => ?_⟩
  · have hgrows : w.context.env.Grows (w.sweep memory visit id).1.context.env := grows_sweep hv
    obtain ⟨x, hx, hscopes, hleaf⟩ := visits_of_along hv hy
    obtain ⟨halong, -⟩ := along_of_visits hv hx
    rw [← hscopes]
    -- What is left of a statement is the statement itself, or recodes the instruction.
    rcases hv.recodes x.1 x.2.1 x.2.2 with heq | ⟨i, hitem, hall⟩
    · rw [heq] at hleaf
      rw [List.mem_singleton.mp hleaf] at he
      exact hgrows.isValid (h _ halong e he)
    · obtain ⟨j, hj, hrecodes⟩ := hall y.2 hleaf
      rw [hj, Item.expressions] at he
      rcases hrecodes.operand with hop | ⟨k, hop⟩
      · rw [hop] at he
        refine hgrows.isValid (h _ halong e ?_)
        rw [hitem]
        exact he
      · rw [hop] at he
        rw [List.mem_singleton.mp he]
        exact isValid_pcPlus _ k
  · exact hc.adds (adds_sweep hv (fun x hx => h.finds_ne hv hx) fun e => by simp).1

/-- **Trying all expressions without a fault** shows that the program is resolved. -/
theorem resolved_checkExpressions (h : (w.sweep () Pass.checkExpressions id).1.Clean) :
    (w.sweep () Pass.checkExpressions id).1.Resolved := by
  have hclosing := (Context.hasErrors_restart.mp (clean_sweep.mp h)).1
  have hclean := forall_reached_of_foldl (f := Visit.step Pass.checkExpressions)
    (P := fun s : Sweep Unit => s.context.hasErrors = false)
    (fun _ _ hs => (Pass.checkExpressions_step_of_clean hs).1) hclosing
  have hresolved : w.Resolved := by
    intro y hy e he
    obtain ⟨x, hx, ⟨hscopes, -⟩, hyx⟩ :=
      (lockstep_along () Pass.inPlace_checkExpressions.faithful).2.2 y hy
    rw [hyx] at he
    obtain ⟨v, hv⟩ := (Pass.checkExpressions_step_of_clean (hclean x hx)).2 e he
    have hvalid := Expr.isValid_of_evaluate hv
    rw [Environment.isValid_valuation, hscopes] at hvalid
    -- The labels were those of the program all the time.
    exact (Environment.Grows.of_restart
      ((restart_of_visits Pass.inPlace_checkExpressions.ordinary).2 x hx).symm).isValid hvalid
  exact (hresolved.sweep Pass.inPlace_checkExpressions.faithful).1

/-! ## Later passes -/

/-- The program is resolved, and no label was missed so far. -/
structure Informed (w : Workspace) : Prop where
  resolved : w.Resolved
  missesNoLabel : w.context.MissesNoLabel

theorem Informed.sweep (h : w.Informed) (hv : visit.Faithful) :
    (w.sweep memory visit id).1.Informed :=
  ⟨(h.resolved.sweep hv).1, (h.resolved.sweep hv).2 h.missesNoLabel⟩

theorem endures_informed : Stage.Endures Informed := by
  rintro w name ⟨hresolved, hmisses⟩
  refine ⟨hresolved, hmisses.adds ?_⟩
  exact .error (by simp)

theorem Informed.emit (h : w.Informed) : w.emit.1.Informed := by
  unfold Workspace.emit
  split
  · exact h
  · exact h.sweep Pass.inPlace_emit.faithful

end Workspace

/-- Every pass that keeps nothing in mind is faithful, but for the expansion of macros. -/
theorem Pass.Kind.faithful {kind : Pass.Kind} {visit : Visit Unit} (hv : kind.visit? = some visit)
    (hne : kind ≠ .expandMacros) : visit.Faithful := by
  cases kind with
  | expandMacros => exact absurd rfl hne
  | checkExpressions => cases hv; exact Pass.inPlace_checkExpressions.faithful
  | easyModes => cases hv; exact Pass.inPlace_easyModes.faithful
  | updateLabels => cases hv; exact Pass.inPlace_updateLabels.faithful
  | collapse => cases hv; exact Pass.inPlace_collapse.faithful
  | extendBranches => cases hv; exact Pass.faithful_extendBranches
  | normalizeModes => cases hv; exact Pass.inPlace_normalizeModes.faithful
  | _ => cases hv

namespace Assembly

/-- Behind the trial of all expressions there are only passes that keep nothing in mind, and macros
are not expanded any more. -/
theorem kinds_behind_trial (extend : Bool) :
    ∀ kind ∈ Stage.kindsAll ((Stage.pipeline extend).drop 5),
      kind.visit?.isSome = true ∧ kind ≠ .expandMacros := by
  cases extend <;> decide

theorem kept_behind_trial {I : Workspace → Prop} (extend : Bool)
    (hI : ∀ {visit : Visit Unit}, visit.Faithful → ∀ w, I w → I (w.sweep () visit id).1) :
    ∀ kind ∈ Stage.kindsAll ((Stage.pipeline extend).drop 5), ∀ w d, I w →
      I (w.runPass kind d).1 := by
  intro kind hkind w d hw
  obtain ⟨hsome, hne⟩ := kinds_behind_trial extend kind hkind
  obtain ⟨visit, hv⟩ := Option.isSome_iff_exists.mp hsome
  refine Workspace.kept_runPass (fun hclean => ?_) hw
  rw [Workspace.runPass_of_visit hv hclean]
  exact hI (kind.faithful hv hne) w hw

variable {options : Options} {program : Program} {diagnostics : Diagnostics}

theorem behindStage_trial (h : (behindStage options program diagnostics 4).Clean) :
    behindStage options program diagnostics 5 =
      ((behindStage options program diagnostics 4).sweep () Pass.checkExpressions id).1 := by
  have hstage : (Stage.pipeline options.branchExtend)[4]? = some (.pass .checkExpressions) := rfl
  have hvisit : Pass.Kind.checkExpressions.visit? = some Pass.checkExpressions := rfl
  rw [behindStage_succ hstage, Stage.go_pass_of_visit hvisit h]

theorem informed_of_trial (h : (behindStage options program diagnostics 5).Clean) :
    (behindStage options program diagnostics 5).Informed := by
  have hfour : (behindStage options program diagnostics 4).Clean := by
    have hstage : (Stage.pipeline options.branchExtend)[4]? = some (.pass .checkExpressions) := rfl
    rw [behindStage_succ hstage] at h
    exact Stage.clean_of_go h
  refine ⟨?_, .of_clean h⟩
  rw [behindStage_trial hfour] at h ⊢
  exact Workspace.resolved_checkExpressions h

/-- **No label is missed behind the trial of all expressions.** If no fault was found when it ends,
then neither a pass that comes later, in whatever round, nor the last pass finds a label without a
value, even where it finds something else wrong. -/
theorem no_label_missed (options : Options) (program : Program) (diagnostics : Diagnostics)
    (h : (behindStage options program diagnostics 5).Clean) :
    (∀ entry ∈ Stage.historyAll ((Stage.pipeline options.branchExtend).drop 5)
        (behindStage options program diagnostics 5) [],
      ∀ fault ∈ entry.after.context.diagnostics.errors, ∀ symbol,
        fault.value ≠ .evaluation (.unknownLabel symbol)) ∧
      ∀ fault ∈ (ofProgram options program diagnostics).diagnostics.errors, ∀ symbol,
        fault.value ≠ .evaluation (.unknownLabel symbol) := by
  have hinformed := informed_of_trial h
  have hpass := kept_behind_trial (I := Workspace.Informed) options.branchExtend
    fun hv _ hw => hw.sweep hv
  refine ⟨fun entry hentry => ?_, ?_⟩
  · have hentries := (Stage.kept_runAll Workspace.endures_informed _ hpass _ [] hinformed).2
    exact (hentries entry hentry).missesNoLabel
  · have hend := Stage.kept_runStages Workspace.endures_informed hpass hinformed
    rw [behindStage, ← runStages_append, List.take_append_drop] at hend
    exact hend.emit.missesNoLabel

/-- A branch to a local label that it does not reach, and a byte that the label does not fit. -/
def lateFaults : Program :=
  ⟨[.leaf 1 ⟨.topLevel, .scopeBegin⟩,
    .leaf 2 ⟨.topLevel, .label (.inScope "l") (.pcPlus 1000)⟩,
    .leaf 3 ⟨.topLevel, .instruction (.pending .beq .memory (.symbol (.inScope "l")))⟩,
    .leaf 4 ⟨.topLevel, .data .byte .little [.symbol (.inScope "l")]⟩,
    .leaf 5 ⟨.topLevel, .scopeEnd⟩], 6⟩

theorem no_label_missed_lateFaults :
    (behindStage {} lateFaults {} 5).Clean ∧
      (Stage.historyAll ((Stage.pipeline true).drop 5) (behindStage {} lateFaults {} 5) []).length =
        10 ∧
      (ofProgram {} lateFaults {}).diagnostics.errors.length = 1 ∧
      ∀ fault ∈ (ofProgram {} lateFaults {}).diagnostics.errors, ∀ symbol,
        fault.value ≠ .evaluation (.unknownLabel symbol) := by
  have h : (behindStage {} lateFaults {} 5).Clean := by
    unfold Workspace.Clean
    decide +kernel
  exact ⟨h, by decide +kernel, by decide +kernel, (no_label_missed {} lateFaults {} h).2⟩

end Assembly
end Assembler6502
