import Assembler6502.Proofs.Extension
import Assembler6502.Proofs.Scopes

/-!
# What passes leave of statements

Once macros are expanded, a pass touches instructions only. It may give an instruction another mode,
or put other instructions in its place, but it makes up no operands, save for distances from the
program counter; and where it leaves a branch, the branch is one that the extension can replace. To
the context it does what passing a statement allows. So the pass reaches all statements in their
scopes, and leaves them there.

## Main definitions

* `Instruction.Extensible`: a branch that has a target and can be replaced
* `Instruction.Recodes`: what a pass may put in the place of an instruction
* `Visit.Faithful`, `Visit.InPlace`: the pass recodes instructions and passes every statement
* `Visit.Ordinary`: what every pass but the last leaves alone

## Main results

* `Workspace.along_of_visits`: a faithful pass reaches the statements in their scopes
* `Workspace.visits_of_along`: what it leaves stands in the scopes of what it has reached
* `Workspace.adds_sweep`: the faults that it adds
-/

namespace Assembler6502

/-! ## Instructions -/

/-- A branch of this operation can be replaced: it is always taken, or it has an opposite. -/
def Mnemonic.Replaceable (m : Mnemonic) : Prop :=
  m = .bra ∨ ∃ inverse, m.inverse? = some inverse

/-- On every processor, an operation with a displacement of one byte can be replaced. -/
theorem Cpu.replaceable_of_hasMode {cpu : Cpu} {m : Mnemonic}
    (h : cpu.hasMode m .relative = true) : m.Replaceable := by
  have hall : ∀ cpu : Cpu, ∀ e ∈ cpu.encodings, e.mode = .relative →
      e.mnemonic = .bra ∨ e.mnemonic.inverse?.isSome := by
    intro cpu
    cases cpu <;> decide +kernel
  simp only [hasMode, opcode?, Option.isSome_map, List.find?_isSome, Bool.and_eq_true,
    beq_iff_eq] at h
  obtain ⟨e, he, hm, hmode⟩ := h
  rw [← hm]
  exact (hall cpu e he hmode).imp id Option.isSome_iff_exists.mp

namespace Instruction

variable {i j : Instruction}

/-- If the instruction is a branch with a displacement of one byte, then it has a target and can be
replaced. While the mode is open there is an operand that can become the target. -/
structure Extensible (i : Instruction) : Prop where
  pending : ∀ shape, i.addressing = .pending shape → i.operand.isSome
  target : i.addressing = .resolved .relative → i.operand.isSome
  replaceable : i.addressing = .resolved .relative → i.mnemonic.Replaceable

theorem extensible_resolved {m : Mnemonic} {mode : Mode} {e : Option Expr}
    (hmode : mode ≠ .relative) : Extensible ⟨m, .resolved mode, e⟩ := by
  refine ⟨?_, ?_, ?_⟩
  · rintro shape ⟨⟩
  · rintro ⟨⟩
    exact absurd rfl hmode
  · rintro ⟨⟩
    exact absurd rfl hmode

theorem extensible_pending (m : Mnemonic) (shape : OperandShape) (e : Expr) :
    (pending m shape e).Extensible := by
  refine ⟨fun _ _ => rfl, ?_, ?_⟩
  · rintro ⟨⟩
  · rintro ⟨⟩

/-- There is an operand, unless the instruction has no room for one. -/
def Whole (i : Instruction) : Prop :=
  i.operand.isSome ∨ i.addressing = .resolved .implied

/-- What a pass may put in the place of an instruction: the operand is kept, or is a distance from
the program counter, and is not missing where it was not; and branches can still be replaced. -/
structure Recodes (i j : Instruction) : Prop where
  operand : j.operand = i.operand ∨ ∃ k, j.operand = some (.pcPlus k)
  extensible : i.Extensible → j.Extensible
  whole : i.Whole → j.Whole

theorem Whole.inMode (h : i.Whole) (hopen : i.addressing ≠ .resolved .implied) (mode : Mode) :
    (i.inMode mode).Whole :=
  .inl (h.resolve_right hopen)

theorem recodes_inMode {mode : Mode} (h : mode ≠ .relative)
    (hopen : i.addressing ≠ .resolved .implied) : i.Recodes (i.inMode mode) :=
  ⟨.inl rfl, fun _ => extensible_resolved h, fun hi => hi.inMode hopen mode⟩

theorem absolute_ne_relative (shape : OperandShape) : shape.absolute ≠ .relative := by
  cases shape <;> decide

/-- An instruction with an open mode may become a branch of its processor. -/
theorem recodes_branchMode {cpu : Cpu} {mode : Mode} (h : i.branchMode? cpu = some mode) :
    i.Recodes (i.inMode mode) := by
  unfold branchMode? at h
  split at h
  · rename_i hpending
    refine ⟨.inl rfl, fun hi => ?_, fun hi => hi.inMode (by simp [hpending]) mode⟩
    have hmode : cpu.hasMode i.mnemonic mode = true := List.find?_some h
    have hsome := hi.pending _ hpending
    refine ⟨?_, fun _ => hsome, ?_⟩
    · rintro shape ⟨⟩
    · rintro ⟨⟩
      exact Cpu.replaceable_of_hasMode hmode
  · cases h

/-- One instruction is the other one in the mode that comes next. -/
inductive Resizes (i : Instruction) : Instruction → Prop
  | narrowed {shape : OperandShape} (ha : i.addressing = .pending shape) :
      Resizes i (i.inMode shape.zeroPage)
  | widened {mode wide : Mode} (ha : i.addressing = .resolved mode)
      (hwide : mode.widened? = some wide) : Resizes i (i.inMode wide)

theorem resizes_of_narrowed? {cpu : Cpu} {v : Value} (h : i.narrowed? cpu v = some j) :
    i.Resizes j := by
  unfold narrowed? at h
  split at h
  · rename_i shape ha
    split at h
    · cases h
      exact .narrowed ha
    · cases h
  · cases h

theorem resizes_of_widened? {cpu : Cpu} {v : Value} (h : i.widened? cpu v = some j) :
    i.Resizes j := by
  unfold widened? at h
  split at h
  · cases h
  · rename_i mode ha
    split at h
    · cases h
    · rename_i wide hwide
      split at h
      · cases h
        exact .widened ha hwide
      · cases h

theorem Resizes.recodes (h : i.Resizes j) : i.Recodes j := by
  cases h with
  | @narrowed shape ha => exact recodes_inMode (by cases shape <;> decide) (by simp [ha])
  | @widened mode wide ha hwide =>
    refine recodes_inMode ?_ ?_
    · rintro rfl
      cases mode <;> cases hwide
    · rw [ha]
      rintro ⟨⟩
      cases hwide

theorem recodes_jumpTo {m : Mnemonic} {target : Expr} :
    (resolved m .relative target).Recodes (Pass.jumpTo target) :=
  ⟨.inl rfl, fun _ => extensible_resolved (by decide), fun _ => .inl rfl⟩

theorem recodes_skippingBranch {m inverse : Mnemonic} (hinv : m.inverse? = some inverse) :
    i.Recodes (Pass.skippingBranch inverse) := by
  refine ⟨.inr ⟨5, rfl⟩, fun _ => ⟨?_, fun _ => rfl, fun _ => ?_⟩, fun _ => .inl rfl⟩
  · rintro shape ⟨⟩
  · exact .inr ⟨m, Mnemonic.inverse?_inverse? hinv⟩

end Instruction

/-! ## Passes -/

variable {μ : Type}

/-- The pass recodes instructions and leaves all other statements, and passes every statement. -/
structure Visit.Faithful (visit : Visit μ) : Prop where
  passes : ∀ (s : Sweep μ) (id : Nat) (st : Statement),
    Context.Passes True (s.context.Finds (fun _ => True) st.item) st.item s.context
      (visit s id st).1.context
  recodes : ∀ (s : Sweep μ) (id : Nat) (st : Statement), (visit s id st).2 = .leaf id st ∨
    ∃ i, st.item = .instruction i ∧
      ∀ l ∈ (visit s id st).2.leaves, ∃ j, l.2.item = .instruction j ∧ i.Recodes j

/-- The pass recodes instructions where they stand, leaves all other statements, and passes every
statement without giving out numbers. It binds labels or not, and finds faults among `F` besides
expressions without values. -/
structure Visit.InPlace (binds : Prop) (F : Item → Fault → Prop) (visit : Visit μ) : Prop where
  passes : ∀ (s : Sweep μ) (id : Nat) (st : Statement),
    Sweep.Passes binds (s.context.Finds (F st.item) st.item) st.item s (visit s id st).1
  recodes : ∀ (s : Sweep μ) (id : Nat) (st : Statement), (visit s id st).2 = .leaf id st ∨
    ∃ i j, st.item = .instruction i ∧ i.Recodes j ∧
      (visit s id st).2 = .leaf id (Pass.inPlace st j)

/-- The pass finds nothing but what passes find in statements, and does not touch the processor nor
the labels, but for those that it may bind. -/
def Visit.Ordinary (binds : Prop) (visit : Visit μ) : Prop :=
  ∀ s id st, Context.Moves binds Fault.Ordinary st.item s.context (visit s id st).1.context

namespace Visit.InPlace

variable {binds : Prop} {F : Item → Fault → Prop} {visit : Visit μ}

theorem observe {step : Sweep μ → Nat → Statement → Sweep μ}
    (h : ∀ s id st, Sweep.Passes binds (s.context.Finds (F st.item) st.item) st.item s
      (step s id st)) : (Visit.observe step).InPlace binds F :=
  ⟨h, fun _ _ _ => .inl rfl⟩

theorem faithful (h : visit.InPlace binds F) : visit.Faithful := by
  refine ⟨fun s id st => (h.passes s id st).toPasses.mono (fun _ => trivial) fun _ hfault =>
    hfault.mono fun _ _ => trivial, fun s id st => ?_⟩
  refine (h.recodes s id st).imp_right ?_
  rintro ⟨i, j, hi, hrecodes, heq⟩
  refine ⟨i, hi, fun l hl => ?_⟩
  rw [heq] at hl
  rw [List.mem_singleton.mp hl]
  exact ⟨j, rfl, hrecodes⟩

theorem ordinary (h : visit.InPlace binds fun _ => Fault.Ordinary) : visit.Ordinary binds :=
  fun s id st => (h.passes s id st).toMoves.mono (fun hb => hb) fun _ hfault => hfault.ordinary

theorem exists_leaf (h : visit.InPlace binds F) (s : Sweep μ) (id : Nat) (st : Statement) :
    ∃ st', (visit s id st).2 = .leaf id st' := by
  rcases h.recodes s id st with heq | ⟨i, j, -, -, heq⟩
  · exact ⟨_, heq⟩
  · exact ⟨_, heq⟩

end Visit.InPlace

/-! ## Faithful sweeps -/

namespace Visit.Faithful

variable {visit : Visit μ}

theorem surroundings (hv : visit.Faithful) (s : Sweep μ) (l : Nat × Statement) :
    (visit.step s l).context.env.surroundings = s.context.env.surroundings.follow l.2.item :=
  (hv.passes s l.1 l.2).surroundings

theorem scopes (hv : visit.Faithful) (s : Sweep μ) (l : Nat × Statement) :
    (visit.step s l).context.env.scopeState = s.context.env.scopeState.follow l.2.item :=
  (hv.passes s l.1 l.2).scopes

theorem grows (hv : visit.Faithful) (s : Sweep μ) (l : Nat × Statement) :
    s.context.env.Grows (visit.step s l).context.env :=
  (hv.passes s l.1 l.2).grows

/-- What a faithful pass leaves of a statement stands where the statement stood, and goes on where
it went on, for all that instructions leave alone. -/
theorem leaves {τ : Type} (follow : τ → Item → τ) (hfollow : ∀ σ i, follow σ (.instruction i) = σ)
    (hv : visit.Faithful) (s : Sweep μ) (l : Nat × Statement) (σ : τ) :
    (visit s l.1 l.2).2.leaves.foldl (fun σ l => follow σ l.2.item) σ = follow σ l.2.item ∧
      ∀ y ∈ reached (fun σ l => follow σ l.2.item) σ (visit s l.1 l.2).2.leaves, y.1 = σ := by
  rcases hv.recodes s l.1 l.2 with heq | ⟨i, hitem, hall⟩
  · rw [heq]
    simp [Node.leaves]
  · -- Only instructions take the place of an instruction, and following them changes nothing.
    have hkeep : ∀ y ∈ reached (fun (σ : τ) (l : Nat × Statement) => follow σ l.2.item) σ
        (visit s l.1 l.2).2.leaves, y.1 = σ → follow y.1 y.2.2.item = σ := by
      intro y hy hσ
      obtain ⟨j, hj, -⟩ := hall y.2 (mem_of_mem_reached hy)
      rw [hj, hfollow, hσ]
    rw [hitem, hfollow]
    exact foldl_invariant (P := fun τ => τ = σ) rfl hkeep

end Visit.Faithful

namespace Workspace

variable {w : Workspace} {memory : μ} {visit : Visit μ}

theorem leaves_sweep {close : Context → Context} :
    (w.sweep memory visit close).1.program.leaves =
      (w.visits memory visit).flatMap fun x => (visit x.1 x.2.1 x.2.2).2.leaves := by
  rw [Workspace.sweep_eq]
  exact Node.leavesAll_traverseAll visit _ _

theorem env_opening : (w.opening memory).context.env = w.context.env.restart := by
  simp [opening]

/-- A pass that binds no labels sees those that it was given, up to its end. -/
theorem restart_of_visits (hv : visit.Ordinary False) :
    (w.closing memory visit).context.env.restart = w.context.env.restart ∧
      ∀ x ∈ w.visits memory visit, x.1.context.env.restart = w.context.env.restart := by
  refine foldl_invariant (P := fun s : Sweep μ => s.context.env.restart = w.context.env.restart)
    ?_ fun x _ h => ?_
  · rw [env_opening]
    rfl
  · exact (hv x.1 x.2.1 x.2.2).restart.trans h

theorem env_sweep {close : Context → Context} (hv : visit.Ordinary False)
    (hclose : ∀ c, (close c).env = c.env) :
    (w.sweep memory visit close).1.context.env = w.context.env.restart := by
  rw [sweep_eq]
  simp only [Context.env_restart, hclose]
  exact (restart_of_visits hv).1

variable (memory) in
/-- A faithful pass and the scopes of the program go in lockstep. -/
theorem lockstep_along (hv : visit.Faithful) :
    w.context.env.Grows (w.closing memory visit).context.env ∧
      (∀ x ∈ w.visits memory visit, ∃ y ∈ ScopeState.along w.program.leaves,
        (x.1.context.env.scopeState = y.1 ∧ w.context.env.Grows x.1.context.env) ∧ y.2 = x.2) ∧
      ∀ y ∈ ScopeState.along w.program.leaves, ∃ x ∈ w.visits memory visit,
        (x.1.context.env.scopeState = y.1 ∧ w.context.env.Grows x.1.context.env) ∧ y.2 = x.2 := by
  -- In every state the scopes are those of the walk, and no label has been lost.
  obtain ⟨⟨-, hend⟩, hthere, hback⟩ := lockstep (s := w.opening memory) (t := {})
    (R := fun (s : Sweep μ) (σ : ScopeState) =>
      s.context.env.scopeState = σ ∧ w.context.env.Grows s.context.env)
    (f := visit.step) (g := fun σ l => σ.follow l.2.item) (l := w.program.leaves)
    ⟨by rw [env_opening]; rfl, .of_restart (by rw [env_opening]; rfl)⟩
    (by
      rintro x - y - - ⟨hσ, hgrows⟩
      exact ⟨by rw [hv.scopes, hσ], hgrows.trans (hv.grows x.1 x.2)⟩)
  exact ⟨hend, hthere, hback⟩

/-- **A faithful pass reaches the statements in their scopes**, and sees every label that was seen
before. -/
theorem along_of_visits (hv : visit.Faithful) {x : Sweep μ × Nat × Statement}
    (hx : x ∈ w.visits memory visit) :
    (x.1.context.env.scopeState, x.2) ∈ ScopeState.along w.program.leaves ∧
      w.context.env.Grows x.1.context.env := by
  obtain ⟨⟨σ, l⟩, hy, ⟨hσ, hgrows⟩, rfl⟩ := (lockstep_along memory hv).2.1 x hx
  rw [hσ]
  exact ⟨hy, hgrows⟩

theorem grows_sweep (hv : visit.Faithful) :
    w.context.env.Grows (w.sweep memory visit id).1.context.env := by
  rw [Workspace.sweep_eq]
  refine (lockstep_along memory hv).1.trans (.of_restart ?_)
  simp

/-- **What a faithful pass leaves** stands in the scopes of the statement that it has reached. -/
theorem visits_of_along (hv : visit.Faithful) {close : Context → Context}
    {y : ScopeState × Nat × Statement}
    (hy : y ∈ ScopeState.along (w.sweep memory visit close).1.program.leaves) :
    ∃ x ∈ w.visits memory visit, x.1.context.env.scopeState = y.1 ∧
      y.2 ∈ (visit x.1 x.2.1 x.2.2).2.leaves := by
  rw [leaves_sweep] at hy
  -- The walk over what is left and the pass are in the same scopes at every statement.
  have hwalk : ∀ (l : List (Nat × Statement)) (s : Sweep μ),
      ∀ y ∈ reached (fun (σ : ScopeState) (l : Nat × Statement) => σ.follow l.2.item)
        s.context.env.scopeState
        ((reached visit.step s l).flatMap fun x => (visit x.1 x.2.1 x.2.2).2.leaves),
      ∃ x ∈ reached visit.step s l, x.1.context.env.scopeState = y.1 ∧
        y.2 ∈ (visit x.1 x.2.1 x.2.2).2.leaves := by
    intro l
    induction l with
    | nil => simp
    | cons a rest ih =>
      intro s y hy
      rw [reached_cons, List.flatMap_cons, reached_append] at hy
      obtain ⟨hend, hall⟩ := hv.leaves ScopeState.follow (fun _ _ => rfl) s a
        s.context.env.scopeState
      rcases List.mem_append.mp hy with hy | hy
      · exact ⟨(s, a), List.mem_cons_self, (hall y hy).symm, mem_of_mem_reached hy⟩
      · rw [hend, ← hv.scopes s a] at hy
        obtain ⟨x, hx, h⟩ := ih (visit.step s a) y hy
        exact ⟨x, List.mem_cons_of_mem _ hx, h⟩
  refine hwalk w.program.leaves (w.opening memory) y ?_
  rw [env_opening]
  exact hy

/-- **The faults that a faithful pass adds** are allowed if those are that it finds where it reaches
the statements. -/
theorem adds_sweep {P : Fault → Prop} (hv : visit.Faithful)
    (h : ∀ x ∈ w.visits memory visit, ∀ fault,
      x.1.context.Finds (fun _ => True) x.2.2.item fault → P fault)
    (hs : ∀ e, P (.symbol e)) :
    Context.Adds P w.context (w.sweep memory visit id).1.context ∧
      ∀ x ∈ w.visits memory visit, Context.Adds P w.context x.1.context := by
  obtain ⟨hend, hall⟩ := foldl_invariant (f := visit.step) (s := w.opening memory)
    (l := w.program.leaves) (P := fun s => Context.Adds P w.context s.context)
    (.restart hs w.context)
    fun x hx hP => hP.trans ((hv.passes x.1 x.2.1 x.2.2).faults.mono (h x hx))
  refine ⟨?_, hall⟩
  rw [Workspace.sweep_eq]
  exact hend.trans (.restart hs _)

/-- Faults are never taken back: those that were there behind a statement come first in the end. -/
theorem adds_of_visits (hv : visit.Faithful) {x : Sweep μ × Nat × Statement}
    (hx : x ∈ w.visits memory visit) :
    Context.Adds (fun _ => True) (visit.step x.1 x.2).context
      (w.sweep memory visit id).1.context := by
  have hend := (forall_reached_le (f := visit.step)
    (R := fun s t : Sweep μ => Context.Adds (fun _ => True) s.context t.context)
    (fun s => .refl _ s.context) (fun h h' => h.trans h')
    fun s l => (hv.passes s l.1 l.2).faults.mono fun _ _ => trivial).2 x hx
  rw [Workspace.sweep_eq]
  exact hend.trans (.restart (fun _ => trivial) _)

end Workspace
end Assembler6502
