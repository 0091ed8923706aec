import Assembler6502.Proofs.Conservativity
import Assembler6502.Proofs.History
import Assembler6502.Proofs.Positions

/-!
# Branches that are kept

A run of the extension decides on a branch with the labels that it was given, at the address that
the branch has behind everything that the run has already put in the place of other branches. What
it replaces is never put back. So a branch is written as a branch exactly if it reaches its target
in every run, as that run counts; it does not suffice that it would reach its target in the end. A
branch that is kept does reach its target in the end.

## Main definitions

* `Stage.Entry.Reaches`: a branch reaches its target as a run of the extension counts
* `Statement.Fixed`: an instruction in a mode that is neither open nor narrow
* `Node.Replaces`: what takes the place of a branch

## Main results

* `Stage.branch_selected`: a branch is kept or replaced when encodings are selected
* `Assembly.branch_kept_iff`: when a branch is written as a branch
-/

namespace Assembler6502

/-! ## What a run of the extension counts -/

namespace Pass

variable {w : Workspace} {π : List Nat} {n : Node}

theorem forall_clean_extendBranches
    (h : (w.closing () extendBranches).context.hasErrors = false) :
    ∀ x ∈ w.visits () extendBranches,
      (Visit.step extendBranches x.1 x.2).context.hasErrors = false :=
  forall_reached_of_foldl (P := fun s : Sweep Unit => s.context.hasErrors = false)
    (fun _ _ hs => (extendBranches_of_clean hs).1) h

/-- The address that a run has come to is the one behind what it has put in the place of statements.
-/
theorem env_foldl_extendBranches {s : Sweep Unit} {l : List (Nat × Statement)}
    (h : ∀ x ∈ reached (Visit.step extendBranches) s l,
      (Visit.step extendBranches x.1 x.2).context.hasErrors = false) :
    (l.foldl (Visit.step extendBranches) s).context.env =
      s.context.env.layoutEnd ((reached (Visit.step extendBranches) s l).flatMap
        fun x => (extendBranches x.1 x.2.1 x.2.2).2.leaves) := by
  induction l generalizing s with
  | nil => rfl
  | cons a rest ih =>
    obtain ⟨ha, hrest⟩ := List.forall_mem_cons.mp h
    obtain ⟨-, henv, -⟩ := extendBranches_of_clean ha
    rw [List.foldl_cons, ih hrest, henv]
    simp [Environment.layoutEnd]

/-- **A run of the extension comes to a position** with the labels that it was given, at the address
that the position has in the program that it returns. -/
theorem env_stateAt_extendBranches (h : w.program.root.at? π = some n)
    (hclean : (w.closing () extendBranches).context.hasErrors = false) :
    (w.stateAt () extendBranches π).context.env =
      w.context.env.restart.layoutEnd
        ((w.sweep () extendBranches id).1.program.root.before π) := by
  have hopening : (w.opening ()).context.env = w.context.env.restart := by
    simp [Workspace.opening]
  rw [Workspace.before_sweep h, ← hopening]
  exact env_foldl_extendBranches fun x hx =>
    forall_clean_extendBranches hclean x (Workspace.mem_visits_of_before h hx)

end Pass

/-! ## Instructions that keep their modes -/

/-- An instruction in a mode that is neither open nor narrow. -/
def Statement.Fixed (st : Statement) : Prop :=
  ∃ m mode e, st.item = .instruction (.resolved m mode e) ∧ mode.widened? = none

/-- The pass returns instructions that are neither open nor narrow. -/
def Visit.Preserving (visit : Visit Unit) : Prop :=
  ∀ s id st, st.Fixed → (visit s id st).2 = .leaf id st

namespace Pass

theorem preserving_updateLabels : Visit.Preserving updateLabels := fun _ _ _ _ => rfl

theorem preserving_collapse : Visit.Preserving collapse := by
  rintro s id ⟨location, item⟩ ⟨m, mode, e, hitem, hmode⟩
  obtain rfl : item = .instruction (.resolved m mode e) := hitem
  have hresized : resized? s location (.resolved m mode e) = (none, s) := by
    simp [resized?, isResizable, Instruction.resolved, hmode]
  simp only [collapse, hresized]

theorem preserving_normalizeModes : Visit.Preserving normalizeModes := by
  rintro s id ⟨location, item⟩ ⟨m, mode, e, hitem, -⟩
  obtain rfl : item = .instruction (.resolved m mode e) := hitem
  rfl

end Pass

theorem Workspace.at?_sweep_of_preserving {w : Workspace} {visit : Visit Unit}
    {close : Context → Context} {π : List Nat} {n : Node} (hv : visit.Preserving)
    (h : w.program.root.at? π = some n) (hn : ∀ l ∈ n.leaves, l.2.Fixed) :
    (w.sweep () visit close).1.program.root.at? π = some n :=
  at?_sweep_of_returned h fun x _ hx => hv x.1 x.2.1 x.2.2 (hn x.2 hx)

/-! ## What takes the place of a branch -/

/-- What takes the place of a branch: a jump in the place of one that is always taken, the opposite
branch and a jump in the place of any other one. -/
inductive Node.Replaces (number : Nat) (st : Statement) (m : Mnemonic) (target : Expr) : Node → Prop
  | always (hm : m = .bra) :
      Replaces number st m target (.leaf number (Pass.inPlace st (Pass.jumpTo target)))
  | conditional {inverse : Mnemonic} (first : Nat) (hinv : m.inverse? = some inverse) :
      Replaces number st m target (.sequence number st.location
        [.leaf first (Pass.inPlace st (Pass.skippingBranch inverse)),
          .leaf (first + 1) (Pass.inPlace st (Pass.jumpTo target))])

section Replaces

variable {w : Workspace} {π : List Nat} {number : Nat} {st : Statement} {m : Mnemonic}
  {target : Expr} {n : Node}

theorem Pass.fixed_of_branch? (h : st.item.branch? = some (m, target)) : st.Fixed :=
  ⟨m, .relative, target, Item.branch?_eq_some.mp h, rfl⟩

theorem Pass.fixed_jumpTo : (inPlace st (jumpTo target)).Fixed :=
  ⟨.jmp, .absolute, target, rfl, rfl⟩

theorem Node.Replaces.fixed (h : n.Replaces number st m target) : ∀ l ∈ n.leaves, l.2.Fixed := by
  cases h with
  | always =>
    simp only [leaves, List.forall_mem_singleton]
    exact Pass.fixed_jumpTo
  | conditional =>
    simp only [leaves, leavesAll, List.cons_append, List.nil_append, List.forall_mem_cons]
    exact ⟨Pass.fixed_of_branch? Pass.branch?_skippingBranch, Pass.fixed_jumpTo, by simp⟩

theorem Node.Replaces.ne_leaf (h : n.Replaces number st m target)
    (hb : st.item.branch? = some (m, target)) : n ≠ .leaf number st := by
  intro heq
  cases h with
  | always =>
    rw [← (Node.leaf.inj heq).2] at hb
    cases hb
  | conditional => cases heq

/-- A run of the extension without a fault keeps what an earlier one has put in the place of a
branch. -/
theorem Pass.at?_extendBranches_of_replaces
    (hclean : (w.closing () extendBranches).context.hasErrors = false)
    (h : w.program.root.at? π = some n) (hn : n.Replaces number st m target) :
    (w.sweep () extendBranches id).1.program.root.at? π = some n := by
  refine Workspace.at?_sweep_of_returned h ?_
  rintro ⟨s, i, st'⟩ hx hleaf
  have hstep := forall_clean_extendBranches hclean _ hx
  cases hn with
  | always =>
    obtain ⟨rfl, rfl⟩ : i = number ∧ st' = inPlace st (jumpTo target) := by
      simpa [Node.leaves] using hleaf
    simp only [extendBranches, extendBranch_other branch?_jumpTo]
  | @conditional inverse first hinv =>
    have hcases : (i = first ∧ st' = inPlace st (skippingBranch inverse)) ∨
        (i = first + 1 ∧ st' = inPlace st (jumpTo target)) := by
      simpa [Node.leaves, Node.leavesAll] using hleaf
    rcases hcases with ⟨rfl, rfl⟩ | ⟨rfl, rfl⟩
    · exact snd_extendBranches_skippingBranch hinv hstep
    · simp only [extendBranches, extendBranch_other branch?_jumpTo]

/-- What a run of the extension does to a branch: it keeps one that reaches its target and replaces
any other one. -/
theorem Pass.at?_extendBranches_of_branch (h : w.program.root.at? π = some (.leaf number st))
    (hb : st.item.branch? = some (m, target)) (hm : m = .bra ∨ m.inverse?.isSome) :
    ((w.stateAt () extendBranches π).Reaches st.location target →
        (w.sweep () extendBranches id).1.program.root.at? π = some (.leaf number st)) ∧
      (¬ (w.stateAt () extendBranches π).Reaches st.location target →
        ∃ n, (w.sweep () extendBranches id).1.program.root.at? π = some n ∧
          n.Replaces number st m target) := by
  rw [Workspace.at?_sweep h]
  simp only [Node.traverse, Option.some.injEq, exists_eq_left']
  refine ⟨fun hreach => congrArg Prod.snd (extendBranch_reaching hb hreach), fun hfar => ?_⟩
  rcases hm with rfl | hm
  · rw [(extendBranches_always hb hfar).1]
    exact .always rfl
  · obtain ⟨inverse, hinv⟩ := Option.isSome_iff_exists.mp hm
    rw [(extendBranches_conditional hb hinv hfar).1]
    exact .conditional _ hinv

end Replaces

/-! ## Entries of the history -/

namespace Stage

/-- The environment that a position has in the program that a pass returns, under the labels that
the pass was given. -/
def Entry.environmentAt (entry : Entry) (π : List Nat) : Environment :=
  entry.before.context.env.restart.layoutEnd (entry.after.program.root.before π)

/-- A branch at a position reaches a target there. -/
def Entry.Reaches (entry : Entry) (π : List Nat) (target : Expr) : Prop :=
  ∃ v, target.evaluate (entry.environmentAt π).valuation = .ok v ∧
    fitsByte (displacement v (entry.environmentAt π).pc) = true

variable {entry : Entry} {π : List Nat} {number : Nat} {st : Statement} {m : Mnemonic}
  {target : Expr} {n : Node}

theorem Entry.Valid.after_eq {visit : Visit Unit} (h : entry.Valid)
    (hv : entry.kind.visit? = some visit) :
    entry.after = (entry.before.sweep () visit id).1 := by
  obtain ⟨⟨d, hd⟩, hclean⟩ := h
  rw [hd] at hclean ⊢
  rw [Workspace.runPass_of_visit hv (Workspace.clean_of_runPass hclean)]

theorem Entry.Valid.clean_closing {visit : Visit Unit} (h : entry.Valid)
    (hv : entry.kind.visit? = some visit) :
    (entry.before.closing () visit).context.hasErrors = false := by
  have hclean := h.clean
  rw [h.after_eq hv] at hclean
  exact (Context.hasErrors_restart.mp (Workspace.clean_sweep.mp hclean)).1

/-- A run of the extension without a fault counts the distance of a branch with the labels that it
was given and at the address that the branch has in the program that it returns. -/
theorem Entry.Valid.reaches_iff (h : entry.Valid) (hk : entry.kind = .extendBranches)
    (hleaf : entry.before.program.root.at? π = some (.leaf number st))
    (hb : st.item.branch? = some (m, target)) :
    entry.Reaches π target ↔
      (entry.before.stateAt () Pass.extendBranches π).Reaches st.location target := by
  have hv : entry.kind.visit? = some Pass.extendBranches := hk ▸ Pass.visit?_extendBranches
  have hclosing := h.clean_closing hv
  have henv := Pass.env_stateAt_extendBranches hleaf hclosing
  rw [← h.after_eq hv] at henv
  have hmem : (entry.before.stateAt () Pass.extendBranches π, number, st) ∈
      entry.before.visits () Pass.extendBranches :=
    Workspace.mem_visits hleaf (by simp [Node.leaves])
  obtain ⟨-, -, hvalue⟩ := Pass.extendBranches_of_clean
    (Pass.forall_clean_extendBranches hclosing _ hmem)
  obtain ⟨v, hv⟩ := hvalue m target hb
  have hvo := @Sweep.valueOf_of_evaluate _ _ st.location _ _ hv
  -- The target has a value, so both sides ask whether the same displacement fits.
  simp only [Context.evaluate, henv] at hv
  simp only [Entry.Reaches, Entry.environmentAt, Sweep.Reaches, hvo, hv, henv, Except.ok.injEq,
    exists_eq_left']

/-- A pass that selects encodings is the extension, or keeps all instructions that are neither open
nor narrow. -/
theorem Entry.Valid.extends_or_preserves (h : entry.Valid)
    (hk : entry.kind ∈ (selection true).kinds) :
    entry.kind = .extendBranches ∨
      ∀ (π : List Nat) (n : Node), (∀ l ∈ n.leaves, l.2.Fixed) →
        entry.before.program.root.at? π = some n → entry.after.program.root.at? π = some n := by
  have hcases : entry.kind = .updateLabels ∨ entry.kind = .collapse ∨
      entry.kind = .extendBranches := by
    simpa [selection, sizing, placement, kinds, kindsAll] using hk
  rcases hcases with hk | hk | hk
  · refine .inr fun π n hn hat => ?_
    rw [h.after_eq (hk ▸ Pass.visit?_updateLabels)]
    exact Workspace.at?_sweep_of_preserving Pass.preserving_updateLabels hat hn
  · refine .inr fun π n hn hat => ?_
    rw [h.after_eq (hk ▸ Pass.visit?_collapse)]
    exact Workspace.at?_sweep_of_preserving Pass.preserving_collapse hat hn
  · exact .inl hk

/-- **When encodings are selected**, a branch is kept exactly if it reaches its target in every run
of the extension, as that run counts; otherwise it is replaced. -/
theorem branch_selected {w : Workspace} {memory : Memory}
    (h : ((selection true).run w memory).1.Clean)
    (hleaf : w.program.root.at? π = some (.leaf number st))
    (hb : st.item.branch? = some (m, target)) (hm : m = .bra ∨ m.inverse?.isSome) :
    (((selection true).run w memory).1.program.root.at? π = some (.leaf number st) ∧
        ∀ entry ∈ (selection true).history w memory, entry.kind = .extendBranches →
          entry.Reaches π target) ∨
      ((∃ n, ((selection true).run w memory).1.program.root.at? π = some n ∧
          n.Replaces number st m target) ∧
        ∃ entry ∈ (selection true).history w memory,
          ¬ (entry.kind = .extendBranches → entry.Reaches π target)) := by
  have hlinked := linked_history (selection true) w memory h
  have hvalid := hlinked.valid h
  have hkinds := kind_mem_kinds (selection true) w memory
  have hfixed : ∀ l ∈ (Node.leaf number st).leaves, l.2.Fixed := by
    simpa [Node.leaves] using Pass.fixed_of_branch? hb
  refine hlinked.kept_or_lost
    (K := fun w : Workspace => w.program.root.at? π = some (.leaf number st))
    (L := fun w : Workspace => ∃ n, w.program.root.at? π = some n ∧ n.Replaces number st m target)
    hleaf (fun entry hentry hkept hreaches => ?_) (fun entry hentry hkept hnot => ?_)
    (fun entry hentry hlost => ?_)
  -- Only the extension touches a branch, and it keeps one that reaches its target.
  · rcases (hvalid entry hentry).extends_or_preserves (hkinds entry hentry) with hk | hpreserves
    · rw [(hvalid entry hentry).after_eq (hk ▸ Pass.visit?_extendBranches)]
      exact (Pass.at?_extendBranches_of_branch hkept hb hm).1
        (((hvalid entry hentry).reaches_iff hk hkept hb).mp (hreaches hk))
    · exact hpreserves π _ hfixed hkept
  -- It replaces one that does not,
  · obtain ⟨hk, hfar⟩ := Classical.not_imp.mp hnot
    rw [(hvalid entry hentry).after_eq (hk ▸ Pass.visit?_extendBranches)]
    exact (Pass.at?_extendBranches_of_branch hkept hb hm).2
      (fun hreach => hfar (((hvalid entry hentry).reaches_iff hk hkept hb).mpr hreach))
  -- and what it has put there holds nothing that any pass would touch again.
  · obtain ⟨n, hat, hn⟩ := hlost
    refine ⟨n, ?_, hn⟩
    rcases (hvalid entry hentry).extends_or_preserves (hkinds entry hentry) with hk | hpreserves
    · have hv : entry.kind.visit? = some Pass.extendBranches := hk ▸ Pass.visit?_extendBranches
      rw [(hvalid entry hentry).after_eq hv]
      exact Pass.at?_extendBranches_of_replaces ((hvalid entry hentry).clean_closing hv) hat hn
    · exact hpreserves π n hn.fixed hat

end Stage

/-! ## The image -/

/-- The passes behind the selection of encodings keep instructions that are neither open nor narrow.
-/
theorem Workspace.at?_finish {w : Workspace} {π : List Nat} {n : Node}
    (h : w.program.root.at? π = some n) (hn : ∀ l ∈ n.leaves, l.2.Fixed) :
    w.finish.program.root.at? π = some n :=
  at?_sweep_of_preserving Pass.preserving_updateLabels
    (at?_sweep_of_preserving Pass.preserving_normalizeModes h hn) hn

namespace Assembly

/-- The workspace that is given to the selection of encodings. -/
def prepared (cpu : Cpu) (program : Program) (diagnostics : Diagnostics) : Workspace :=
  runStages Stage.preparation (start ⟨cpu, true⟩ program diagnostics)

/-- The workspace in which the image is written, when branches are extended. -/
def extended (cpu : Cpu) (program : Program) (diagnostics : Diagnostics) : Workspace :=
  runStages (Stage.pipeline true) (start ⟨cpu, true⟩ program diagnostics)

theorem selected_extend (cpu : Cpu) (program : Program) (diagnostics : Diagnostics) :
    selected ⟨cpu, true⟩ program diagnostics =
      ((Stage.selection true).run (prepared cpu program diagnostics) .fresh).1 := by
  rw [selected, Stage.go, prepared]

/-- **When a branch is written as a branch.** In a program that is assembled without a fault, a
branch is there in the end exactly if it reached its target in every run of the extension, with the
labels that the run was given and at the address that the branch has in the program that the run
returned. It is then written as its opcode and its displacement, so it reaches its target in the
end, too. Otherwise a jump is there, behind the opposite branch if the branch was a conditional
one. -/
theorem branch_kept_iff (cpu : Cpu) (program : Program) (diagnostics : Diagnostics)
    (h : (ofProgram ⟨cpu, true⟩ program diagnostics).diagnostics.hasErrors = false)
    (π : List Nat) (number : Nat) (st : Statement) (m : Mnemonic) (target : Expr)
    (hleaf : (prepared cpu program diagnostics).program.root.at? π = some (.leaf number st))
    (hb : st.item.branch? = some (m, target)) (hm : m = .bra ∨ m.inverse?.isSome) :
    ((extended cpu program diagnostics).program.root.at? π = some (.leaf number st) ↔
        ∀ entry ∈ (Stage.selection true).history (prepared cpu program diagnostics) .fresh,
          entry.kind = .extendBranches → entry.Reaches π target) ∧
      ((extended cpu program diagnostics).program.root.at? π = some (.leaf number st) →
        ∃ s opcode v, s = (extended cpu program diagnostics).stateAt {} Pass.emit π ∧
          (s, number, st) ∈ (extended cpu program diagnostics).visits {} Pass.emit ∧
          s.context.cpu.opcode? m .relative = some opcode ∧
          s.context.evaluate target = .ok v ∧
          fitsByte (displacement v s.context.env.pc) = true ∧
          (Pass.emit s number st).1.memory.bytes = s.memory.bytes ++
            (opcode :: displacementBytes 1 (displacement v s.context.env.pc))) ∧
      ((extended cpu program diagnostics).program.root.at? π ≠ some (.leaf number st) →
        ∃ n, (extended cpu program diagnostics).program.root.at? π = some n ∧
          n.Replaces number st m target) := by
  obtain ⟨hu, -, hstages, hclosing⟩ := clean_of_ofProgram h
  have hextended : extended cpu program diagnostics =
      (selected ⟨cpu, true⟩ program diagnostics).finish := hstages
  rw [selected_extend] at hu hclosing hextended
  have hfixed : ∀ l ∈ (Node.leaf number st).leaves, l.2.Fixed := by
    simpa [Node.leaves] using Pass.fixed_of_branch? hb
  have hselected := @Stage.branch_selected π number st m target (prepared cpu program diagnostics)
    .fresh hu hleaf hb hm
  rw [hextended]
  rcases hselected with ⟨hkept, hall⟩ | ⟨⟨n, hat, hn⟩, entry, hentry, hnot⟩
  -- The branch was kept, and is written without a fault.
  · have hz := Workspace.at?_finish hkept hfixed
    refine ⟨⟨fun _ => hall, fun _ => hz⟩, fun _ => ?_, fun hne => absurd hz hne⟩
    have hmem := @Workspace.mem_visits Image _ {} Pass.emit π _ hz (_, number, st)
      (List.mem_singleton_self _)
    obtain ⟨opcode, v, hopcode, hv, hfits, hbytes⟩ := Pass.emit_branch
      (Item.branch?_eq_some.mp hb) rfl (Pass.forall_clean_emit hclosing _ hmem)
    exact ⟨_, opcode, v, rfl, hmem, hopcode, hv, hfits, hbytes⟩
  -- The branch was replaced in some run, and is not there any more.
  · have hz := Workspace.at?_finish hat hn.fixed
    rw [hz]
    have hne : some n ≠ some (.leaf number st) := fun heq => hn.ne_leaf hb (Option.some.inj heq)
    exact ⟨⟨fun hk => absurd hk hne, fun hall => absurd (hall entry hentry) hnot⟩,
      fun hk => absurd hk hne, fun _ => ⟨n, rfl, hn⟩⟩

/-- The branch back to the label is replaced, although it would reach the label in the end: the run
that replaces it has already put two instructions in the place of the branch before the label, but
still has the label where it was. -/
theorem branch_kept_iff_backBranch :
    (ofProgram ⟨.mos6502, true⟩ backBranch {}).diagnostics.hasErrors = false ∧
      (prepared .mos6502 backBranch {}).program.root.at? [3] = some (.leaf 4
        ⟨.topLevel, .instruction (.resolved .bne .relative (.symbol (.global "l")))⟩) ∧
      (∃ n, (extended .mos6502 backBranch {}).program.root.at? [3] = some n ∧
        n.Replaces 4 ⟨.topLevel, .instruction (.resolved .bne .relative (.symbol (.global "l")))⟩
          .bne (.symbol (.global "l"))) ∧
      ((extended .mos6502 backBranch {}).stateAt {} Pass.emit [3]).context.env.lookup
        (.global "l") = some 5 ∧
      ((extended .mos6502 backBranch {}).stateAt {} Pass.emit [3]).context.env.pc = 129 ∧
      fitsByte (displacement 5 129) = true := by
  have h : (ofProgram ⟨.mos6502, true⟩ backBranch {}).diagnostics.hasErrors = false := by
    decide +kernel
  have hleaf : (prepared .mos6502 backBranch {}).program.root.at? [3] = some (.leaf 4
      ⟨.topLevel, .instruction (.resolved .bne .relative (.symbol (.global "l")))⟩) := by
    rfl
  obtain ⟨-, -, hreplaced⟩ := branch_kept_iff .mos6502 backBranch {} h [3] 4 _ .bne _ hleaf rfl
    (.inr rfl)
  refine ⟨h, hleaf, hreplaced fun heq => ?_, by decide +kernel, by decide +kernel, by decide⟩
  have htwo : ((extended .mos6502 backBranch {}).program.root.at? [3]).map
      (fun n => n.leaves.length) = some 2 := by
    decide +kernel
  rw [heq] at htwo
  cases htwo

end Assembly
end Assembler6502
