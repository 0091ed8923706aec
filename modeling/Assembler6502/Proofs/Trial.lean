import Assembler6502.Proofs.KnownLabels

/-!
# What the trial of all expressions finds

Expressions are tried when labels are known to have values, but do not have them yet: a label that
was found is zero until it is placed, and the program counter stays at zero. About labels the trial
is right, as they are found or not whatever their values are. About divisions it is not. It reports
those that divide by zero when everything is zero, like a division by a label that will have another
value, and it does not see those that divide by zero only when labels are placed. Where divisors
depend on nothing, what it says of divisions is right.

## Main definitions

* `Environment.Unplaced`: every label that has a value is zero
* `Environment.blankValuation`: every label that is seen is zero, and so is the program counter

## Main results

* `Assembly.unplaced_behindStage`: labels are not placed before all expressions are tried
* `Workspace.reported_iff`: what the trial reports
* `Assembly.division_reported_iff`: when the trial reports a division by zero
-/

namespace Assembler6502

namespace Environment

variable {env e f : Environment}

/-! ## Labels without a place -/

/-- Every label that has a value is zero. -/
def Unplaced (env : Environment) : Prop :=
  ∀ stack symbol v, env.lookupIn stack symbol = some v → v = 0

theorem Unplaced.of_restart (h : e.Unplaced) (hr : f.restart = e.restart) : f.Unplaced := by
  intro stack symbol v hv
  rw [lookupIn_of_restart hr] at hv
  exact h stack symbol v hv

theorem Unplaced.bind_zero (h : env.Unplaced) (symbol : Symbol) : (env.bind symbol 0).Unplaced := by
  intro stack other v hv
  rcases env.lookupIn_bind_cases symbol 0 stack other with hcase | hcase
  · exact h stack other v (hcase ▸ hv)
  · rw [hcase] at hv
    exact (Option.some.inj hv).symm

theorem lookupIn_empty (stack : List Nat) (symbol : Symbol) :
    ({} : Environment).lookupIn stack symbol = none := by
  cases symbol with
  | global name => rfl
  | inScope name =>
    induction stack with
    | nil => rfl
    | cons scope rest ih =>
      rw [lookupIn_cons]
      exact ih

theorem unplaced_empty : ({} : Environment).Unplaced := by
  intro stack symbol v hv
  rw [lookupIn_empty] at hv
  cases hv

/-- The valuation in which every label that open scopes see is zero, and so is the program
counter. -/
def blankValuation (env : Environment) (stack : List Nat) : Valuation :=
  ⟨fun symbol => (env.lookupIn stack symbol).map fun _ => 0, 0⟩

theorem Unplaced.valuationIn (h : env.Unplaced) (stack : List Nat) :
    env.valuationIn stack = env.blankValuation stack := by
  simp only [Environment.valuationIn, blankValuation, Valuation.mk.injEq, and_true]
  funext symbol
  cases hv : env.lookupIn stack symbol with
  | none => rfl
  | some v =>
    rw [h stack symbol v hv]
    rfl

/-- The program counter of every segment is zero. -/
structure Grounded (env : Environment) : Prop where
  pc : env.pc = 0
  segments : ∀ name v, env.segments.get? name = some v → v = 0

theorem Grounded.switchSegment (h : env.Grounded) (name : String) (writable : Bool) :
    (env.switchSegment name writable).Grounded := by
  have hsegments : ∀ other v, (env.segments.insert env.segment env.pc).get? other = some v →
      v = 0 := by
    intro other v hv
    rw [Table.get?_insert] at hv
    split at hv
    · rw [← Option.some.inj hv, h.pc]
    · exact h.segments other v hv
  refine ⟨?_, hsegments⟩
  -- A segment that was never left begins at zero.
  cases hv : (env.segments.insert env.segment env.pc).get? name with
  | none => simp [Environment.switchSegment, hv]
  | some v => simp [Environment.switchSegment, hv, hsegments name v hv]

end Environment

/-! ## The stages before the trial -/

namespace Pass

/-- Labels that are found are zero. -/
theorem unplaced_initLabels (s : Sweep Discovery) (l : Nat × Statement)
    (h : s.context.env.Unplaced) : (Visit.step initLabels s l).context.env.Unplaced := by
  obtain ⟨id, location, item⟩ := l
  cases item with
  | setPc target | advance target fill => exact h
  | label symbol value =>
    have hnote := (reports_noteDefinition (P := fun _ => True) s id location symbol
      fun _ => trivial).env
    have hwarn := (reports_warnOfName (fun _ => True)
      (bindIfValid (noteDefinition s id location symbol) symbol value) location symbol).env
    simp only [Visit.step, initLabels, Visit.observe]
    rw [hwarn, bindIfValid]
    split
    · rw [Sweep.context_setChanged, Sweep.context_mapEnv, Context.env_mapEnv, hnote]
      exact h.bind_zero symbol
    · rw [hnote]
      exact h
  | _ => exact h.of_restart (Context.restart_followStructure _ _)

end Pass

namespace Workspace

variable {μ : Type} {w : Workspace} {memory : μ} {visit : Visit μ} {close : Context → Context}

theorem unplaced_sweep (hstep : ∀ s l, s.context.env.Unplaced →
      (visit.step s l).context.env.Unplaced) (hclose : ∀ c, (close c).env = c.env)
    (h : w.context.env.Unplaced) : (w.sweep memory visit close).1.context.env.Unplaced := by
  have hclosing : (w.closing memory visit).context.env.Unplaced := by
    refine (foldl_invariant (P := fun s : Sweep μ => s.context.env.Unplaced) ?_ fun x _ hx => ?_).1
    · rw [env_opening]
      exact h.of_restart rfl
    · exact hstep x.1 x.2 hx
  rw [Workspace.sweep_eq]
  refine hclosing.of_restart ?_
  simp [hclose]

theorem endures_unplaced : Stage.Endures fun w : Workspace => w.context.env.Unplaced :=
  fun _ _ h => h

end Workspace

/-- **Labels are not placed before all expressions are tried**: those that have values are zero. -/
theorem Assembly.unplaced_behindStage (options : Options) (program : Program)
    (diagnostics : Diagnostics) :
    (behindStage options program diagnostics 4).context.env.Unplaced := by
  have hkinds : Stage.kindsAll ((Stage.pipeline options.branchExtend).take 4) =
      [.defineMacros, .expandMacros, .initLabels, .checkCircularity] := rfl
  refine Stage.kept_runStages Workspace.endures_unplaced (fun kind hkind w d hw => ?_)
    Environment.unplaced_empty
  refine Workspace.kept_runPass (I := fun w => w.context.env.Unplaced) (fun hclean => ?_) hw
  rw [hkinds] at hkind
  simp only [List.mem_cons, List.not_mem_nil, or_false] at hkind
  rcases hkind with rfl | rfl | rfl | rfl
  · rw [Workspace.runPass_defineMacros hclean]
    exact Workspace.unplaced_sweep (fun s l h => h.of_restart
      (Pass.ordinary_defineMacros s l.1 l.2).restart)
      (fun c => (Pass.reports_closeDefinition c).env) hw
  · rw [Workspace.runPass_of_visit Pass.visit?_expandMacros hclean]
    exact Workspace.unplaced_sweep (fun s l h => h.of_restart
      (Pass.ordinary_expandMacros s l.1 l.2).restart) (fun _ => rfl) hw
  · rw [Workspace.runPass_initLabels hclean]
    exact Workspace.unplaced_sweep Pass.unplaced_initLabels (fun _ => rfl) hw
  · rw [Workspace.runPass_checkCircularity hclean]
    exact Workspace.unplaced_sweep (fun s l h => h.of_restart
      (Pass.inPlace_checkCircularity.passes s l.1 l.2).restart) (fun _ => rfl) hw

/-! ## The trial -/

namespace Workspace

variable {w : Workspace}

/-- The trial does not track addresses. -/
theorem grounded_checkExpressions (s : Sweep Unit) (l : Nat × Statement)
    (h : s.context.env.Grounded) :
    (Visit.step Pass.checkExpressions s l).context.env.Grounded := by
  obtain ⟨id, location, item⟩ := l
  have htried : ∀ es : List Expr,
      (es.foldl (Pass.checkExpression location) s.context).env = s.context.env := fun es =>
    (Pass.reports_checkExpressions (P := fun _ => True) fun _ _ _ _ => trivial).env
  cases item with
  | textSegment name => exact h.switchSegment name true
  | dataSegment name => exact h.switchSegment name false
  | blank => exact h
  | scopeBegin => exact ⟨h.pc, h.segments⟩
  | scopeEnd =>
    simp only [Visit.step, Pass.checkExpressions, Visit.observe, Sweep.context_mapContext,
      Context.followStructure?, Environment.exitScope?]
    cases s.context.env.inner with
    | nil => exact ⟨h.pc, h.segments⟩
    | cons scope rest => exact ⟨h.pc, h.segments⟩
  | _ =>
    simp only [Visit.step, Pass.checkExpressions, Visit.observe, Sweep.context_mapContext,
      Context.followStructure?]
    rw [htried]
    exact h

/-- The trial sees the labels that open scopes see, at address zero. -/
theorem valuation_of_visits {x : Sweep Unit × Nat × Statement}
    (hx : x ∈ w.visits () Pass.checkExpressions) :
    x.1.context.env.valuation = w.context.env.valuationIn x.1.context.env.scopeState.inner := by
  -- The trial follows scopes and segments only, so the counter stays at zero.
  have hgrounded : x.1.context.env.Grounded := by
    refine (foldl_invariant (P := fun s : Sweep Unit => s.context.env.Grounded) ?_
      fun x _ h => grounded_checkExpressions x.1 x.2 h).2 x hx
    rw [env_opening]
    refine ⟨rfl, fun name v hv => ?_⟩
    cases hv
  have hlabels := (restart_of_visits Pass.inPlace_checkExpressions.ordinary).2 x hx
  simp only [Environment.valuation, Environment.valuationIn, Valuation.mk.injEq]
  refine ⟨?_, hgrounded.pc⟩
  funext symbol
  rw [← Environment.lookupIn_inner, Environment.lookupIn_of_restart hlabels]
  rfl

/-- An expression without a value is reported where it is tried. -/
theorem reported_of_checkExpression {c : Context} {location : Location} {es : List Expr} {e : Expr}
    {err : EvalError} (he : e ∈ es) (herr : c.evaluate e = .error err) :
    ⟨location, .evaluation err⟩ ∈
      (es.foldl (Pass.checkExpression location) c).diagnostics.errors := by
  -- What comes behind the expression only adds faults, and what comes before changes no value.
  have hadds : ∀ (es : List Expr) (c : Context),
      Context.Reports (fun _ => True) c (es.foldl (Pass.checkExpression location) c) := fun es c =>
    Pass.reports_checkExpressions fun _ _ _ _ => trivial
  obtain ⟨before, after, rfl⟩ := List.append_of_mem he
  rw [List.foldl_append, List.foldl_cons]
  obtain ⟨added, hadded, -⟩ := (hadds after (Pass.checkExpression location
    (before.foldl (Pass.checkExpression location) c) e)).faults
  rw [hadded, Pass.checkExpression, (hadds before c).evaluate_eq, herr]
  simp [Context.error, Diagnostics.error]

theorem reported_of_step {s : Sweep Unit} {l : Nat × Statement} {e : Expr} {err : EvalError}
    (he : e ∈ l.2.item.expressions) (herr : s.context.evaluate e = .error err) :
    ⟨l.2.location, .evaluation err⟩ ∈
      (Visit.step Pass.checkExpressions s l).context.diagnostics.errors := by
  obtain ⟨id, location, item⟩ := l
  cases item with
  | blank | textSegment name | dataSegment name | scopeBegin | scopeEnd => cases he
  | _ => exact reported_of_checkExpression he herr

/-- **What the trial reports** of expressions is what they lack when every label and the program
counter are zero. -/
theorem reported_iff (hw : w.Clean) (hunplaced : w.context.env.Unplaced) (err : EvalError) :
    (∃ fault ∈ (w.sweep () Pass.checkExpressions id).1.context.diagnostics.errors,
        fault.value = .evaluation err) ↔
      ∃ y ∈ ScopeState.along w.program.leaves, ∃ e ∈ y.2.2.item.expressions,
        e.evaluate (w.context.env.blankValuation y.1.inner) = .error err := by
  have hnone := Context.hasErrors_eq_false.mp hw
  constructor
  · rintro ⟨fault, hfault, hvalue⟩
    have hadds : Context.Adds (fun fault => ∀ err, fault = .evaluation err →
        ∃ y ∈ ScopeState.along w.program.leaves, ∃ e ∈ y.2.2.item.expressions,
          e.evaluate (w.context.env.blankValuation y.1.inner) = .error err)
        w.context (w.sweep () Pass.checkExpressions id).1.context := by
      refine (adds_sweep Pass.inPlace_checkExpressions.faithful (fun x hx fault hfinds => ?_)
        fun e => by simp).1
      rintro err rfl
      obtain ⟨e, he, herr⟩ := hfinds
      rw [Context.evaluate, valuation_of_visits hx, hunplaced.valuationIn] at herr
      exact ⟨_, (along_of_visits Pass.inPlace_checkExpressions.faithful hx).1, e, he, herr⟩
    obtain ⟨added, hadded, hP⟩ := hadds
    rw [hadded, hnone, List.nil_append] at hfault
    exact hP fault hfault err hvalue
  · rintro ⟨y, hy, e, he, herr⟩
    obtain ⟨x, hx, ⟨hscopes, -⟩, hyx⟩ :=
      (lockstep_along () Pass.inPlace_checkExpressions.faithful).2.2 y hy
    rw [hyx] at he
    rw [← hunplaced.valuationIn, ← hscopes, ← valuation_of_visits hx] at herr
    -- The fault is added at the statement, and faults are never taken back.
    have hstep := reported_of_step he herr
    obtain ⟨added, hadded, -⟩ := adds_of_visits Pass.inPlace_checkExpressions.faithful hx
    exact ⟨_, hadded ▸ List.mem_append_left _ hstep, rfl⟩

end Workspace

namespace Assembly

/-- **When the trial reports a division by zero.** It does exactly if some expression divides by
zero while every label and the program counter are zero, in the scopes where the expression stands.
It does not if divisors depend on nothing and every expression has a value for some values of the
labels and some address, as it has for those that the labels get in the end. -/
theorem division_reported_iff (options : Options) (program : Program) (diagnostics : Diagnostics)
    (h : (behindStage options program diagnostics 4).Clean) :
    ((∃ fault ∈ (behindStage options program diagnostics 5).context.diagnostics.errors,
        fault.value = .evaluation .divisionByZero) ↔
      ∃ y ∈ ScopeState.along (behindStage options program diagnostics 4).program.leaves,
        ∃ e ∈ y.2.2.item.expressions,
          e.evaluate ((behindStage options program diagnostics 4).context.env.blankValuation
            y.1.inner) = .error .divisionByZero) ∧
      ((∀ l ∈ (behindStage options program diagnostics 4).program.leaves,
          ∀ e ∈ l.2.item.expressions, e.divisorsHardcoded = true ∧ ∃ ν v, e.evaluate ν = .ok v) →
        ∀ fault ∈ (behindStage options program diagnostics 5).context.diagnostics.errors,
          fault.value ≠ .evaluation .divisionByZero) := by
  have hreported := Workspace.reported_iff h (unplaced_behindStage options program diagnostics)
    .divisionByZero
  rw [← behindStage_trial h] at hreported
  refine ⟨hreported, fun hvalues fault hfault hvalue => ?_⟩
  obtain ⟨y, hy, e, he, herr⟩ := hreported.mp ⟨fault, hfault, hvalue⟩
  obtain ⟨hdivisors, ν, v, hv⟩ := hvalues y.2 (mem_of_mem_reached hy) e he
  exact Expr.evaluate_ne_divisionByZero _ hdivisors hv herr

/-- Ten, divided by a label that is five. -/
def tenByFive : Program :=
  ⟨[.leaf 1 ⟨.topLevel, .label (.global "n") (.constant 5)⟩,
    .leaf 2 ⟨.topLevel, .data .byte .little
      [.chain (.constant 10) [(.divide, .symbol (.global "n"))]]⟩], 3⟩

/-- The program with the value that its label gets. -/
def tenByFivePlaced : Workspace :=
  ⟨tenByFive, { cpu := .mos6502, env := ({} : Environment).bind (.global "n") 5 }⟩

/-- Under the final value of the label, which an update leaves as it is, every expression has a
value; the trial reports a division by zero all the same. -/
theorem division_reported_tenByFive :
    (tenByFivePlaced.sweep () Pass.updateLabels id).1.context.hasErrors = false ∧
      (tenByFivePlaced.sweep () Pass.updateLabels id).2.1 = false ∧
      (tenByFivePlaced.context.env.layout tenByFive.leaves).map
        (fun y => y.2.2.item.expressions.map fun e => (e.evaluate y.1.valuation).toOption) =
          [[some 5], [some 2]] ∧
      (∃ fault ∈ (behindStage {} tenByFive {} 5).context.diagnostics.errors,
        fault.value = .evaluation .divisionByZero) ∧
      ∃ y ∈ ScopeState.along (behindStage {} tenByFive {} 4).program.leaves,
        ∃ e ∈ y.2.2.item.expressions,
          e.evaluate ((behindStage {} tenByFive {} 4).context.env.blankValuation y.1.inner) =
            .error .divisionByZero := by
  have h : (behindStage {} tenByFive {} 4).Clean := by
    unfold Workspace.Clean
    decide +kernel
  have hreported : ∃ fault ∈ (behindStage {} tenByFive {} 5).context.diagnostics.errors,
      fault.value = .evaluation .divisionByZero :=
    ⟨⟨.topLevel, .evaluation .divisionByZero⟩, by decide +kernel, rfl⟩
  exact ⟨by decide +kernel, by decide +kernel, by decide +kernel, hreported,
    (division_reported_iff {} tenByFive {} h).1.mp hreported⟩

end Assembly
end Assembler6502
