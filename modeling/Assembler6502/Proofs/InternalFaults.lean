import Assembler6502.Proofs.Calls
import Assembler6502.Proofs.Readings
import Assembler6502.Proofs.Reports

/-!
# Internal faults

Three faults blame the passes and not the program: that a statement cannot be written at all, that
an instruction is written while its mode is open, and that a statement is captured while no macro is
being defined. They are never reported. A statement is captured only where a definition is open.
Definitions are taken out of the program or are at fault, the expansion goes on until no call is
left, and what it puts in the place of calls holds no definitions, since bodies were captured
without any. At last every open mode is made absolute. So a program that comes to the last pass
consists of statements that can be written.

## Main definitions

* `Fault.Internal`: the faults that blame the passes
* `Context.Sound`: no such fault is there

## Main results

* `Workspace.unmarked_defineMacros`: what is left when definitions are taken out
* `Assembly.emittable_finished`: what comes to the last pass can be written
* `Assembly.internal_unreachable`: a program that was read has no internal faults
-/

namespace Assembler6502

/-- The faults that blame the passes and not the program. -/
def Fault.Internal : Fault → Prop
  | .pass (.unhandledItem _ _) | .emission (.unresolvedMode _) | .expansion .notDefining => True
  | _ => False

theorem Fault.Ordinary.not_internal {fault : Fault} (h : fault.Ordinary) : ¬ fault.Internal := by
  intro hinternal
  unfold Fault.Internal at hinternal
  split at hinternal
  · exact h
  · exact h
  · exact h
  · exact hinternal

/-- There is no internal fault. -/
def Context.Sound (c : Context) : Prop :=
  ∀ fault ∈ c.diagnostics.errors, ¬ fault.value.Internal

theorem Context.Accounted.sound {c : Context} (h : c.Accounted (¬ ·.Internal)) : c.Sound := by
  intro fault hfault
  rcases h fault hfault with hother | hordinary
  · exact hother
  · exact hordinary.not_internal

/-! ## What definitions leave -/

/-- The items that neither begin nor end a definition. -/
def Item.Unmarked : Item → Prop
  | .macroBegin _ | .macroEnd => False
  | _ => True

theorem Item.Framing.unmarked {item : Item} (h : item.Framing) : item.Unmarked := by
  cases item with
  | macroBegin | macroEnd => cases h
  | _ => trivial

namespace Pass

variable {s : Sweep Bool} {l : Nat × Statement}

theorem clean_of_defineMacros (h : (Visit.step defineMacros s l).context.hasErrors = false) :
    s.context.hasErrors = false :=
  (ordinary_defineMacros s l.1 l.2).faults.clean h

/-- Bodies hold no definitions, and if a definition was met inside another one, that was a fault. -/
structure Unmarked (s : Sweep Bool) : Prop where
  macros : s.context.macros.Written Item.Unmarked
  memory : s.memory = true → s.context.hasErrors = true

theorem memory_withMacros {location : Location}
    {change : MacroTable → MacroTable × Except MacroError Unit} :
    (withMacros s location change).memory = s.memory := by
  unfold withMacros
  dsimp only
  split <;> rfl

/-- What is kept in mind changes only with a fault. -/
theorem memory_defineMacros (s : Sweep Bool) (l : Nat × Statement) :
    (Visit.step defineMacros s l).memory = s.memory ∨
      (Visit.step defineMacros s l).context.hasErrors = true := by
  simp only [Visit.step, defineMacros]
  split
  · split
    · exact .inr (by simp)
    · exact .inl memory_withMacros
  · split
    · exact .inl memory_withMacros
    · split <;> exact .inl rfl
  · split
    · exact .inl memory_withMacros
    · exact .inl rfl

theorem Unmarked.step (h : Unmarked s) (l : Nat × Statement) :
    Unmarked (Visit.step defineMacros s l) := by
  constructor
  · simp only [Visit.step, defineMacros]
    split
    · split
      · exact h.macros
      · exact Workspace.written_withMacros (h.macros.define _)
    · split
      · exact Workspace.written_withMacros h.macros.endDefine
      · split <;> exact h.macros
    · rename_i hbegin hend
      split
      · -- Beginnings and ends of definitions are dealt with before anything is captured.
        refine Workspace.written_withMacros (h.macros.capture ⟨l.2, rfl, ?_⟩)
        cases hitem : l.2.item with
        | macroBegin name => exact hbegin name hitem
        | macroEnd => exact hend hitem
        | _ => trivial
      · rw [Sweep.context_mapContext, Context.macros_followStructure]
        exact h.macros
  · intro hm
    rcases memory_defineMacros s l with hsame | hfault
    · by_contra hclean
      have hs := clean_of_defineMacros (Bool.eq_false_iff.mpr hclean)
      rw [h.memory (hsame ▸ hm)] at hs
      cases hs
    · exact hfault

/-- Where taking definitions out finds no fault, nothing is left of a definition. -/
theorem Unmarked.visit (h : Unmarked s)
    (hclean : (Visit.step defineMacros s l).context.hasErrors = false) :
    (defineMacros s l.1 l.2).2.Written Item.Unmarked := by
  obtain ⟨id, location, item⟩ := l
  have hs := clean_of_defineMacros hclean
  cases hd : s.context.macros.isDefining with
  | true =>
    cases item with
    | macroBegin name => simp [Visit.step, defineMacros, hd] at hclean
    | _ =>
      simp only [defineMacros, hd, if_true]
      exact Node.written_leaf trivial
  | false =>
    cases item with
    | macroEnd =>
      -- An end without a beginning is no fault only behind a fault.
      have hm : s.memory = false := by
        by_contra hm
        rw [h.memory (by simpa using hm)] at hs
        cases hs
      simp [Visit.step, defineMacros, hd, hm] at hclean
    | _ =>
      simp only [defineMacros, hd, Bool.false_eq_true, if_false]
      exact Node.written_leaf trivial

end Pass

namespace Workspace

variable {w : Workspace}

/-- **When definitions are taken out without a fault**, nothing is left of them, neither in the
program nor in the bodies of macros. -/
theorem unmarked_defineMacros (h : w.context.macros.Written Item.Unmarked)
    (hclean : (w.sweep false Pass.defineMacros Pass.closeDefinition).1.Clean) :
    (w.sweep false Pass.defineMacros Pass.closeDefinition).1.Written Item.Unmarked := by
  obtain ⟨hend, hall⟩ := foldl_invariant (f := Visit.step Pass.defineMacros)
    (s := w.opening false) (l := w.program.leaves) (P := Pass.Unmarked)
    ⟨by rw [opening, Context.macros_restart]; exact h, nofun⟩ fun x _ hx => hx.step x.2
  have hclosing : (w.closing false Pass.defineMacros).context.hasErrors = false := by
    rw [Clean, sweep_eq] at hclean
    exact (Pass.reports_closeDefinition _).faults.clean (Context.hasErrors_restart.mp hclean).1
  -- Faults stay, so no statement on the way was at fault.
  have hsteps := forall_reached_of_foldl (P := fun s : Sweep Bool => s.context.hasErrors = false)
    (fun _ _ => Pass.clean_of_defineMacros) hclosing
  constructor
  · intro l hl
    rw [leaves_sweep] at hl
    obtain ⟨x, hx, hl⟩ := List.mem_flatMap.mp hl
    exact (hall x hx).visit (hsteps x hx) l hl
  · rw [sweep_eq, Context.macros_restart]
    unfold Pass.closeDefinition
    dsimp only
    split <;> exact hend.macros.abandon

/-- An expansion that changes nothing has met no call. -/
theorem not_invoke_of_unchanged (h : (w.sweep () Pass.expandMacros id).2.1 = false) :
    ∀ l ∈ (w.sweep () Pass.expandMacros id).1.program.leaves, ∀ name arguments,
      l.2.item ≠ .invoke name arguments := by
  rw [changed_sweep] at h
  have hstays (s : Sweep Unit) (l : Nat × Statement)
      (hc : (Visit.step Pass.expandMacros s l).changed = false) :
      s.changed = false ∧ ∀ name arguments, l.2.item ≠ .invoke name arguments := by
    simp only [Visit.step, Pass.expandMacros] at hc
    split at hc
    · split at hc <;> cases hc
    · exact ⟨hc, by assumption⟩
  have hsteps := forall_reached_of_foldl (P := fun s : Sweep Unit => s.changed = false)
    (fun s l hc => (hstays s l hc).1) h
  intro l hl name arguments hitem
  rw [leaves_sweep] at hl
  obtain ⟨x, hx, hl⟩ := List.mem_flatMap.mp hl
  have hx' := (hstays x.1 x.2 (hsteps x hx)).2
  -- What is no call is left as it is.
  have hleaf : (Pass.expandMacros x.1 x.2.1 x.2.2).2 = .leaf x.2.1 x.2.2 := by
    simp only [Pass.expandMacros]
  rw [hleaf] at hl
  rw [List.mem_singleton.mp hl] at hitem
  exact hx' name arguments hitem

end Workspace

/-! ## Assembling -/

namespace Assembly

variable {options : Options} {program : Program} {diagnostics : Diagnostics}

/-- Nothing is left of definitions when macros are expanded. -/
theorem unmarked_expanded (hclean : (expanded options program diagnostics).Clean) :
    (expanded options program diagnostics).Written Item.Unmarked := by
  have hlinked := linked_expansions hclean
  have hdefined : (behindStage options program diagnostics 1).Written Item.Unmarked := by
    have hstage : (Stage.pipeline options.branchExtend)[0]? = some (.pass .defineMacros) := rfl
    have hclean' := hlinked.clean hclean
    rw [behindStage_succ hstage] at hclean' ⊢
    have hstart := Stage.clean_of_go hclean'
    rw [Stage.fst_go, Stage.run_pass, Workspace.runPass_defineMacros hstart] at hclean' ⊢
    exact Workspace.unmarked_defineMacros MacroTable.written_empty hclean'
  refine hlinked.lost hdefined fun entry hentry h => ?_
  rw [(after_expansion hclean hentry).1]
  exact Workspace.written_expandMacros h fun _ => Item.Framing.unmarked

theorem not_invoke_expanded (hclean : (expanded options program diagnostics).Clean) :
    ∀ l ∈ (expanded options program diagnostics).program.leaves, ∀ name arguments,
      l.2.item ≠ .invoke name arguments := by
  rw [expanded_eq, Stage.run_fixpoint] at hclean ⊢
  obtain ⟨w, m, hw, heq, hlast⟩ := Workspace.iterate_exit hclean
  rw [← heq]
  simp only [Stage.runAll_single, Stage.run_pass, Stage.changed_run_pass,
    Workspace.runPass_of_visit Pass.visit?_expandMacros hw] at hlast ⊢
  exact Workspace.not_invoke_of_unchanged hlast

/-- **What comes to the last pass** can be written. -/
theorem emittable_finished (hclean : (finished options program diagnostics).Clean) :
    ∀ l ∈ (finished options program diagnostics).program.leaves, l.2.item.Emittable := by
  intro l hl
  by_cases hinstruction : l.2.item.isInstruction = true
  · -- Open modes were made absolute, and labels were updated behind that.
    obtain ⟨i, hi⟩ := Item.exists_instruction (by rw [hinstruction]; rfl)
    obtain ⟨-, -, heq⟩ := clean_of_runStages hclean
    rw [finished, heq, Workspace.finish, Workspace.leaves_updateLabels,
      Pass.leaves_normalizeModes] at hl
    obtain ⟨l, -, rfl⟩ := List.mem_map.mp hl
    rw [Statement.item_normalized] at hi ⊢
    cases hitem : l.2.item with
    | instruction j =>
      simp only [Item.normalized, Item.Emittable, Instruction.normalized]
      split
      · exact ⟨_, by assumption⟩
      · exact ⟨_, rfl⟩
    | _ => simp [hitem, Item.normalized] at hi
  · -- All other statements are those that the expansion of macros has left.
    have hexpanded := clean_expanded hclean
    have hl' := mem_expanded hl (Bool.eq_false_iff.mpr hinstruction)
    have hunmarked := (unmarked_expanded hexpanded).leaves l hl'
    have hcall := not_invoke_expanded hexpanded l hl'
    cases hitem : l.2.item with
    | instruction i => simp [hitem, Item.isInstruction] at hinstruction
    | macroBegin | macroEnd =>
      rw [hitem] at hunmarked
      exact hunmarked
    | invoke name arguments => exact hcall name arguments hitem
    | _ => trivial

/-- The last pass writes what it is given, and so finds nothing but faults of statements. -/
theorem accounted_emit {other : Fault → Prop}
    (h : (finished options program diagnostics).context.Accounted other) :
    (finished options program diagnostics).emit.1.context.Accounted other := by
  unfold Workspace.emit
  split
  · exact h
  · rename_i hclean
    have hemittable := emittable_finished (Bool.eq_false_iff.mpr hclean)
    have hmoves (s : Sweep Image) (l : Nat × Statement)
        (hl : l ∈ (finished options program diagnostics).program.leaves) :
        Context.Moves False Fault.Ordinary l.2.item s.context
          (Visit.step Pass.emit s l).context :=
      (Pass.inPlace_emit.passes s l.1 l.2).toMoves.mono id fun _ hfault =>
        (hfault.mono fun _ hordinary => hordinary (hemittable l hl)).ordinary
    exact h.adds ((Workspace.ordinary_sweep hmoves fun c => .refl _ c).2.mono fun _ => .inr)

theorem accounted_finished (h : ∀ fault ∈ diagnostics.errors, ¬ fault.value.Internal) :
    (finished options program diagnostics).context.Accounted (¬ ·.Internal) := by
  have hkinds : ∀ kind ∈ Stage.kindsAll (Stage.pipeline options.branchExtend), kind ≠ .emit := by
    cases options.branchExtend <;> decide
  refine Stage.kept_runStages (I := fun w : Workspace => w.context.Accounted (¬ ·.Internal)) ?_
    (fun kind hkind w d => Workspace.accounted_runPass (hkinds kind hkind) d)
    (fun fault hfault => .inl (h fault hfault))
  exact fun w name hw => hw.adds (.error (.inl id))

/-- **Internal faults are never reported.** Whatever the program is, if what was wrong with it
before is what reading sources found, then no fault blames the passes, on any processor and whether
branches are extended or not; and what comes to the last pass, if that runs, are statements that can
be written: no beginnings or ends of definitions, no calls of macros and no instructions whose mode
is open. -/
theorem internal_unreachable (options : Options) (program : Program) (cpu : Cpu) (fs : FileSystem)
    (stdin : Except FileError (List UInt8)) (inputs : List Source.Input) :
    (∀ fault ∈ (ofProgram options program
        (Source.read cpu fs stdin inputs).diagnostics).diagnostics.errors,
      ¬ fault.value.Internal) ∧
      ((finished options program (Source.read cpu fs stdin inputs).diagnostics).Clean →
        ∀ l ∈ (finished options program
          (Source.read cpu fs stdin inputs).diagnostics).program.leaves, l.2.item.Emittable) := by
  have hread : ∀ fault ∈ (Source.read cpu fs stdin inputs).diagnostics.errors,
      ¬ fault.value.Internal := by
    intro fault hfault
    obtain ⟨e, he⟩ := (Source.adds_read cpu fs stdin inputs).1 fault hfault
    rw [he]
    exact fun h => h
  refine ⟨?_, emittable_finished⟩
  have hfinished : (finished options program
      (Source.read cpu fs stdin inputs).diagnostics).context.Accounted (¬ ·.Internal) :=
    accounted_finished hread
  change Context.Sound (Workspace.emit (finished options program _)).1.context
  exact (accounted_emit hfinished).sound

/-- A macro with an open mode and a branch that reaches too far, and a call of it. -/
def farBody : List Char :=
  ".macro m\n lda _1\n beq 1000\n.macend\n`m l\nl: nop\n".toList

theorem internal_unreachable_farBody :
    let read := Source.read .mos6502 .empty (.ok []) [.text "far" farBody ""]
    (finished {} read.program read.diagnostics).Clean ∧
      (finished {} read.program read.diagnostics).program.instructions.map (·.mnemonic) =
        [.lda, .bne, .jmp, .nop] ∧
      ∀ l ∈ (finished {} read.program read.diagnostics).program.leaves, l.2.item.Emittable := by
  intro read
  obtain ⟨hclean, hmnemonics⟩ :
      (finished {} read.program read.diagnostics).context.hasErrors = false ∧
      (finished {} read.program read.diagnostics).program.instructions.map (·.mnemonic) =
        [.lda, .bne, .jmp, .nop] := by
    decide +kernel
  exact ⟨hclean, hmnemonics, (internal_unreachable {} read.program .mos6502 .empty (.ok [])
    [.text "far" farBody ""]).2 hclean⟩

end Assembly
end Assembler6502
