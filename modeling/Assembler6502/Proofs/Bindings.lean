import Assembler6502.Proofs.Discovery
import Assembler6502.Proofs.Trial

/-!
# Where labels are bound

A pass binds a label where the label is defined, in the scope that is innermost there, and nowhere
else. The passes behind the expansion of macros touch instructions only, so the definitions and the
scopes in which they stand are the same for all of them. In the end a scope has no local labels but
those that are defined in it.

## Main definitions

* `skeleton`: the statements of a program that are no instructions
* `ScopeState.Defines`: a label is defined directly in a scope
* `Workspace.Bound`: every label is bound where it is defined

## Main results

* `Workspace.Bound.sweep`: a faithful pass binds labels where they are defined
* `Workspace.kept_faithful`: what the passes behind the expansion of macros keep
* `Assembly.skeleton_finished`, `Assembly.bound_finished`, `Assembly.placed_finished`: what holds in
  the end
-/

namespace Assembler6502

/-! ## Definitions and their scopes -/

def Item.isInstruction : Item → Bool
  | .instruction _ => true
  | _ => false

theorem Item.exists_instruction {item : Item} (h : (!item.isInstruction) = false) :
    ∃ i, item = .instruction i := by
  cases item with
  | instruction i => exact ⟨i, rfl⟩
  | _ => cases h

/-- The statements that are no instructions. -/
def skeleton (leaves : List (Nat × Statement)) : List (Nat × Statement) :=
  leaves.filter fun l => !l.2.item.isInstruction

section Filter

variable {σ α : Type} {f : σ → α → σ} {s : σ} {l : List α} {p : α → Bool}

/-- A walk that some elements have no effect on comes to the others without them. -/
theorem mem_reached_filter (hf : ∀ s a, p a = false → f s a = s) {x : σ × α} :
    x ∈ reached f s (l.filter p) ↔ x ∈ reached f s l ∧ p x.2 = true := by
  induction l generalizing s with
  | nil => simp
  | cons a rest ih =>
    cases ha : p a with
    | true =>
      rw [List.filter_cons_of_pos ha, reached_cons, reached_cons, List.mem_cons, List.mem_cons, ih]
      refine ⟨?_, ?_⟩
      · rintro (rfl | h)
        · exact ⟨.inl rfl, ha⟩
        · exact ⟨.inr h.1, h.2⟩
      · rintro ⟨rfl | h, hp⟩
        · exact .inl rfl
        · exact .inr ⟨h, hp⟩
    | false =>
      rw [List.filter_cons_of_neg (by simp [ha]), reached_cons, List.mem_cons, hf s a ha, ih]
      refine ⟨fun h => ⟨.inr h.1, h.2⟩, ?_⟩
      rintro ⟨rfl | h, hp⟩
      · rw [ha] at hp
        cases hp
      · exact ⟨h, hp⟩

end Filter

namespace ScopeState

variable {leaves other : List (Nat × Statement)} {scope : Nat} {symbol : Symbol}

/-- The number of the innermost scope. -/
def innermost (σ : ScopeState) : Nat :=
  σ.inner.headD 0

/-- A label is defined directly in a scope. -/
def Defines (leaves : List (Nat × Statement)) (scope : Nat) (symbol : Symbol) : Prop :=
  ∃ y ∈ along leaves, y.1.innermost = scope ∧ ∃ value, y.2.2.item = .label symbol value

theorem follow_instruction (σ : ScopeState) (l : Nat × Statement)
    (h : (!l.2.item.isInstruction) = false) : σ.follow l.2.item = σ := by
  obtain ⟨i, hi⟩ := Item.exists_instruction h
  rw [hi]
  rfl

theorem defines_skeleton :
    Defines (skeleton leaves) scope symbol ↔ Defines leaves scope symbol := by
  simp only [Defines, along, skeleton, mem_reached_filter follow_instruction]
  refine ⟨fun ⟨y, hy, h⟩ => ⟨y, hy.1, h⟩, fun ⟨y, hy, hscope, value, hitem⟩ => ?_⟩
  exact ⟨y, ⟨hy, by rw [hitem]; rfl⟩, hscope, value, hitem⟩

theorem Defines.congr (h : Defines leaves scope symbol) (heq : skeleton other = skeleton leaves) :
    Defines other scope symbol := by
  rw [← defines_skeleton, heq]
  exact defines_skeleton.2 h

end ScopeState

namespace Workspace

variable {μ : Type} {w : Workspace} {memory : μ} {visit : Visit μ} {close : Context → Context}

/-- **A faithful pass leaves the skeleton of a program.** -/
theorem skeleton_sweep (hv : visit.Faithful) :
    skeleton (w.sweep memory visit close).1.program.leaves = skeleton w.program.leaves := by
  have hblock : ∀ x : Sweep μ × Nat × Statement,
      skeleton (visit x.1 x.2.1 x.2.2).2.leaves = skeleton [x.2] := by
    intro x
    -- Instructions become instructions, which are no part of the skeleton; the rest is kept.
    rcases hv.recodes x.1 x.2.1 x.2.2 with heq | ⟨i, hi, hall⟩
    · rw [heq]
      rfl
    · have hself : skeleton [x.2] = [] := by simp [skeleton, hi, Item.isInstruction]
      rw [hself]
      refine List.filter_eq_nil_iff.2 fun l hl => ?_
      obtain ⟨j, hj, -⟩ := hall l hl
      simp [hj, Item.isInstruction]
  calc skeleton (w.sweep memory visit close).1.program.leaves
      = (w.visits memory visit).flatMap fun x => skeleton (visit x.1 x.2.1 x.2.2).2.leaves := by
        rw [leaves_sweep, skeleton, List.filter_flatMap]
        rfl
    _ = (w.visits memory visit).flatMap fun x => skeleton [x.2] := by simp only [hblock]
    _ = skeleton ((w.visits memory visit).flatMap fun x => [x.2]) := by
        rw [skeleton, List.filter_flatMap]
        rfl
    _ = skeleton w.program.leaves := by
        have hall := flatMap_reached (f := visit.step) (s := w.opening memory)
          (l := w.program.leaves) id
        rw [List.map_id] at hall
        exact congrArg skeleton hall

end Workspace

/-! ## Labels that are bound -/

theorem Environment.localsOf_of_restart {e f : Environment} (h : f.restart = e.restart)
    (scope : Nat) : f.localsOf scope = e.localsOf scope := by
  have hlocals : f.locals = e.locals := by
    rw [show f.locals = f.restart.locals from rfl, h]
    rfl
  rw [localsOf, localsOf, hlocals]

/-- Binding a label enters one name into the innermost scope. -/
theorem Environment.localsOf_bind_cases (env : Environment) (symbol : Symbol) (v : Value)
    (scope : Nat) (name : String) (h : (((env.bind symbol v).localsOf scope).get? name).isSome) :
    ((env.localsOf scope).get? name).isSome ∨
      env.innermostScope = scope ∧ symbol = .inScope name := by
  cases symbol with
  | global other => exact .inl h
  | inScope other =>
    rw [localsOf_bind] at h
    split at h
    · rename_i hscope
      rw [Table.get?_insert] at h
      split at h
      · rename_i heq
        exact .inr ⟨hscope, by rw [heq]⟩
      · exact .inl h
    · exact .inl h

namespace Workspace

variable {μ : Type} {w : Workspace} {memory : μ} {visit : Visit μ}

/-- Every local label is bound in a scope that defines it. -/
def Bound (w : Workspace) : Prop :=
  ∀ scope name, ((w.context.env.localsOf scope).get? name).isSome →
    ScopeState.Defines w.program.leaves scope (.inScope name)

/-- **A faithful pass binds labels where they are defined**, and leaves them bound there. -/
theorem Bound.sweep (h : w.Bound) (hv : visit.Faithful) :
    (w.sweep memory visit id).1.Bound := by
  have hclosing : ∀ scope name,
      (((w.closing memory visit).context.env.localsOf scope).get? name).isSome →
        ScopeState.Defines w.program.leaves scope (.inScope name) := by
    refine (foldl_invariant (P := fun s : Sweep μ => ∀ scope name,
      ((s.context.env.localsOf scope).get? name).isSome →
        ScopeState.Defines w.program.leaves scope (.inScope name)) ?_ fun x hx hs => ?_).1
    · rw [env_opening]
      exact h
    · intro scope name hsome
      rcases (hv.passes x.1 x.2.1 x.2.2).labels with
        hrestart | ⟨-, symbol, value, v, hitem, hbind⟩
      · rw [Visit.step, Environment.localsOf_of_restart hrestart] at hsome
        exact hs scope name hsome
      · -- The label that is new is the one that the statement defines, in the innermost scope.
        rw [Visit.step, hbind] at hsome
        rcases Environment.localsOf_bind_cases _ _ _ _ _ hsome with hsome | ⟨hscope, rfl⟩
        · exact hs scope name hsome
        · exact ⟨_, (along_of_visits hv hx).1, hscope, value, hitem⟩
  intro scope name hsome
  have henv : (w.sweep memory visit id).1.context.env =
      (w.closing memory visit).context.env.restart := by
    simp [sweep_eq]
  rw [henv] at hsome
  exact (hclosing scope name hsome).congr (skeleton_sweep hv)

end Workspace

/-! ## The stages -/

namespace Workspace

variable {w : Workspace}

/-- Faithful passes keep a property. -/
def KeptFaithfully (I : Workspace → Prop) : Prop :=
  ∀ {μ : Type} {visit : Visit μ}, visit.Faithful → ∀ memory w, I w → I (w.sweep memory visit id).1

/-- **The passes behind the expansion of macros** keep what faithful passes keep. -/
theorem kept_faithful {I : Workspace → Prop} {kind : Pass.Kind}
    (hkind : kind ∉ [.defineMacros, .expandMacros, .emit]) (d : Discovery) (hI : KeptFaithfully I)
    (hw : I w) : I (w.runPass kind d).1 := by
  refine kept_runPass (fun hclean => ?_) hw
  cases hv : kind.visit? with
  | some visit =>
    rw [runPass_of_visit hv hclean]
    exact hI (kind.faithful hv (by rintro rfl; simp at hkind)) () w hw
  | none =>
    -- Two more passes keep something in mind and are faithful.
    cases kind with
    | initLabels =>
      rw [runPass_initLabels hclean]
      exact hI Pass.inPlace_initLabels.faithful _ w hw
    | checkCircularity =>
      rw [runPass_checkCircularity hclean]
      exact hI Pass.inPlace_checkCircularity.faithful true w hw
    | defineMacros | emit => simp at hkind
    | _ => cases hv

end Workspace

namespace Assembly

variable {options : Options} {program : Program} {diagnostics : Diagnostics}

/-- A program when it has gone through all stages. -/
def finished {π : Type} [Sweepable π] (options : Options) (program : π)
    (diagnostics : Diagnostics) : Workspace π :=
  runStages (Stage.pipeline options.branchExtend) (start options program diagnostics)

theorem clean_expanded (h : (finished options program diagnostics).Clean) :
    (expanded options program diagnostics).Clean := by
  rw [finished, ← List.take_append_drop 2 (Stage.pipeline options.branchExtend),
    runStages_append] at h
  exact of_foldl (P := Workspace.Clean) (fun _ _ => Stage.clean_of_go) h

theorem kept_of_late {I : Workspace → Prop} {kind : Pass.Kind} (hI : Workspace.KeptFaithfully I)
    (hkind : kind ∈ Stage.kindsAll ((Stage.pipeline options.branchExtend).drop 2)) (w : Workspace)
    (d : Discovery) (hw : I w) : I (w.runPass kind d).1 := by
  have hkinds : ∀ kind ∈ Stage.kindsAll ((Stage.pipeline options.branchExtend).drop 2),
      kind ∉ [.defineMacros, .expandMacros, .emit] := by
    cases options.branchExtend <;> decide
  exact Workspace.kept_faithful (hkinds kind hkind) d hI hw

theorem finished_eq_runStages : finished options program diagnostics =
    runStages ((Stage.pipeline options.branchExtend).drop 2)
      (expanded options program diagnostics) := by
  rw [finished, ← List.take_append_drop 2 (Stage.pipeline options.branchExtend), runStages_append]
  rfl

theorem kept_behind_expansion {I : Workspace → Prop} (hend : Stage.Endures I)
    (hI : Workspace.KeptFaithfully I) (h : I (expanded options program diagnostics)) :
    I (finished options program diagnostics) := by
  rw [finished_eq_runStages]
  exact Stage.kept_runStages hend (fun kind hkind w d hw => kept_of_late hI hkind w d hw) h

/-- What the passes behind the expansion of macros keep holds before each of them, and before the
last pass. -/
theorem kept_entries {I : Workspace → Prop} (hend : Stage.Endures I)
    (hI : Workspace.KeptFaithfully I) (h : I (expanded options program diagnostics)) :
    ∀ entry ∈ entries options program diagnostics 2, I entry.before := by
  have hsplit : (Stage.complete options.branchExtend).drop 2 =
      (Stage.pipeline options.branchExtend).drop 2 ++ [.pass .emit] := rfl
  rw [entries, hsplit, Stage.historyAll_append]
  intro entry hentry
  rcases List.mem_append.mp hentry with hentry | hentry
  · refine (Stage.traced_historyAll _ _ _).kept_before hend (fun other hother w d hw => ?_) h entry
      hentry
    exact kept_of_late hI (Stage.kind_mem_kindsAll _ _ _ other hother) w d hw
  · simp only [Stage.historyAll, Stage.history, List.append_nil, List.mem_singleton] at hentry
    rw [hentry]
    exact finished_eq_runStages ▸ kept_behind_expansion hend hI h

/-- **The skeleton of a program** is what the expansion of macros has made of it. -/
theorem skeleton_finished :
    skeleton (finished options program diagnostics).program.leaves =
      skeleton (expanded options program diagnostics).program.leaves :=
  kept_behind_expansion
    (I := fun w : Workspace => skeleton w.program.leaves =
      skeleton (expanded options program diagnostics).program.leaves)
    (fun _ _ h => h) (fun hv _ _ h => (Workspace.skeleton_sweep hv).trans h) rfl

theorem mem_expanded {l : Nat × Statement}
    (hl : l ∈ (finished options program diagnostics).program.leaves)
    (hitem : l.2.item.isInstruction = false) :
    l ∈ (expanded options program diagnostics).program.leaves := by
  have hmem : l ∈ skeleton (finished options program diagnostics).program.leaves :=
    List.mem_filter.mpr ⟨hl, by simp [hitem]⟩
  rw [skeleton_finished] at hmem
  exact (List.mem_filter.mp hmem).1

/-- No label is bound before labels are sought. -/
theorem restart_expanded : (expanded options program diagnostics).context.env.restart = {} := by
  have hkinds : Stage.kindsAll ((Stage.pipeline options.branchExtend).take 2) =
      [.defineMacros, .expandMacros] := rfl
  refine Stage.kept_runStages (I := fun w : Workspace => w.context.env.restart = {})
    (fun _ _ h => h) (fun kind hkind w d hw => ?_) rfl
  refine Workspace.kept_runPass (I := fun w : Workspace => w.context.env.restart = {})
    (fun hclean => ?_) hw
  rw [hkinds] at hkind
  simp only [List.mem_cons, List.not_mem_nil, or_false] at hkind
  rcases hkind with rfl | rfl
  · rw [Workspace.runPass_defineMacros hclean, Workspace.env_sweep Pass.ordinary_defineMacros
      fun c => (Pass.reports_closeDefinition c).env, hw]
    rfl
  · have henv : (w.sweep () Pass.expandMacros id).1.context.env = w.context.env.restart :=
      Workspace.env_sweep Pass.ordinary_expandMacros fun _ => rfl
    rw [Workspace.runPass_of_visit Pass.visit?_expandMacros hclean, henv, hw]
    rfl

theorem bound_expanded : (expanded options program diagnostics).Bound := by
  intro scope name hsome
  have hempty : (expanded options program diagnostics).context.env.restart =
      ({} : Environment).restart := restart_expanded
  rw [Environment.localsOf_of_restart hempty] at hsome
  cases hsome

/-- **In the end every local label is bound in a scope that defines it.** -/
theorem bound_finished : (finished options program diagnostics).Bound :=
  kept_behind_expansion (fun _ _ h => h) (fun hv _ _ h => h.sweep hv) bound_expanded

theorem bound_entries :
    ∀ entry ∈ entries options program diagnostics 2, entry.before.Bound :=
  kept_entries (fun _ _ h => h) (fun hv _ _ h => h.sweep hv) bound_expanded

/-- Without a fault, labels are placed in the end, and writing the image leaves them so. -/
theorem placed_finished
    (h : (ofProgram options program diagnostics).diagnostics.hasErrors = false) :
    (finished options program diagnostics).Placed ∧
      (finished options program diagnostics).Clean ∧
      (ofProgram options program diagnostics).environment =
        (finished options program diagnostics).context.env := by
  obtain ⟨hselected, hnormalized, heq, hemit⟩ := clean_of_ofProgram h
  have hplaced : (finished options program diagnostics).Placed := by
    rw [finished, heq]
    exact ((placed_selected hselected).finish hnormalized).1
  have hclean : (finished options program diagnostics).Clean :=
    (Workspace.clean_of_emit (w := finished options program diagnostics) h).1
  refine ⟨hplaced, hclean, ?_⟩
  have hclosing := (Workspace.clean_of_emit (w := finished options program diagnostics) h).2
  -- Writing the image follows the layout, and binds nothing.
  show (finished options program diagnostics).emit.1.context.env = _
  have hrun : (finished options program diagnostics).emit =
      (finished options program diagnostics).sweep {} Pass.emit id :=
    if_neg (Bool.eq_false_iff.mp hclean)
  rw [hrun, Workspace.sweep_eq]
  simp only [id, Context.env_restart, (Pass.tracks_emit hclosing).layout.1, Context.env_mapEnv,
    Environment.restart_layoutEnd, Environment.restart_restart]
  exact hplaced.rested

end Assembly
end Assembler6502
