import Assembler6502.Pass.Selection
import Assembler6502.Proofs.Placement

/-!
# Passes that follow the layout

A pass tracks a program if at every statement it does to the context what the layout does to the
environment. It then reaches the statements in the environments of the layout, and if it returns
every statement as well, then it returns the whole workspace. Collapsing instructions without a
change is such a pass. Making open modes absolute is not, since it ignores addresses; but it keeps
the size of every instruction, and so the layout.

## Main definitions

* `Workspace.Tracks`: the pass does to the context what the layout does
* `Workspace.Observes`: the pass follows the layout and does nothing else
* `Workspace.Rested`: the context stands at the beginning of the program

## Main results

* `Workspace.Tracks.layout`: a pass that tracks a program reaches the environments of the layout
* `Workspace.observes_of_layout`: whether a pass only observes is decided on the layout
* `Workspace.Observes.sweep_eq`: a pass that only observes returns the workspace
* `Pass.observes_collapse`: collapsing instructions without a change only observes
-/

namespace Assembler6502

namespace Workspace

variable {μ : Type} {w : Workspace} {memory : μ} {visit : Visit μ}

/-! ## Tracking -/

/-- At every statement the pass does to the context what the layout does to the environment. -/
def Tracks (w : Workspace) (memory : μ) (visit : Visit μ) : Prop :=
  ∀ x ∈ w.visits memory visit,
    (visit x.1 x.2.1 x.2.2).1.context = x.1.context.mapEnv (·.follow x.2.2.item)

/-- **A pass that tracks a program** reaches the environments of the layout, and they are all that
it changes of the context. -/
theorem Tracks.layout (h : w.Tracks memory visit) :
    (w.closing memory visit).context =
        w.context.restart.mapEnv (fun _ => w.context.env.restart.layoutEnd w.program.leaves) ∧
      (∀ x ∈ w.visits memory visit,
        ∃ y ∈ w.context.env.restart.layout w.program.leaves,
          x.1.context = w.context.restart.mapEnv (fun _ => y.1) ∧ y.2 = x.2) ∧
      ∀ y ∈ w.context.env.restart.layout w.program.leaves,
        ∃ x ∈ w.visits memory visit,
          x.1.context = w.context.restart.mapEnv (fun _ => y.1) ∧ y.2 = x.2 := by
  refine lockstep (R := fun (s : Sweep μ) f => s.context = w.context.restart.mapEnv (fun _ => f))
    ?_ ?_
  · simp [opening, Context.mapEnv, ← Context.env_restart]
  · intro x hx y _ _ hR
    exact (h x hx).trans (by rw [hR]; rfl)

/-- The context stands at the beginning of the program. -/
def Rested (w : Workspace) : Prop :=
  w.context.env.restart = w.context.env

theorem Rested.env_restart (h : w.Rested) : w.context.env.restart = w.context.env := h

theorem Rested.restart (h : w.Rested) : w.context.restart = w.context := by
  have hi : w.context.env.inner = [] := by rw [← h]; rfl
  rw [Context.restart_eq hi, Context.mapEnv, h]

theorem rested_sweep (w : Workspace) (memory : μ) (visit : Visit μ) (close : Context → Context) :
    (w.sweep memory visit close).1.Rested := by
  simp [Workspace.sweep_eq, Rested]

/-- At every statement the pass follows the layout, does nothing else, and returns the statement. -/
def Observes (w : Workspace) (memory : μ) (visit : Visit μ) : Prop :=
  ∀ x ∈ w.visits memory visit,
    visit x.1 x.2.1 x.2.2 = (x.1.mapEnv (·.follow x.2.2.item), .leaf x.2.1 x.2.2)

theorem Observes.closing_eq (h : w.Observes memory visit) :
    w.closing memory visit =
      (w.opening memory).mapEnv
        (fun _ => w.context.env.restart.layoutEnd w.program.leaves) := by
  refine (lockstep (R := fun s f => s = (w.opening memory).mapEnv (fun _ => f)) ?_ ?_).1
  · simp [opening, Sweep.mapEnv, Sweep.mapContext, Context.mapEnv, ← Context.env_restart]
  · intro x hx y _ _ hR
    have hstep : visit.step x.1 x.2 = x.1.mapEnv (·.follow x.2.2.item) :=
      congrArg Prod.fst (h x hx)
    rw [hstep, hR]
    rfl

/-- A pass that only observes as long as it follows the layout only observes. -/
theorem observes_of_layout
    (h : ∀ y ∈ w.context.env.restart.layout w.program.leaves,
      visit ((w.opening memory).mapEnv fun _ => y.1) y.2.1 y.2.2 =
        ((w.opening memory).mapEnv (fun _ => y.1.follow y.2.2.item), .leaf y.2.1 y.2.2)) :
    w.Observes memory visit := by
  intro x hx
  obtain ⟨-, hthere, -⟩ := lockstep (s := w.opening memory) (t := w.context.env.restart)
    (R := fun s f => s = (w.opening memory).mapEnv (fun _ => f))
    (f := visit.step) (g := fun env l => env.follow l.2.item) (l := w.program.leaves)
    (by simp [opening, Sweep.mapEnv, Sweep.mapContext, Context.mapEnv, ← Context.env_restart])
    (by
      -- As long as the pass has only followed the layout its state is the one that `h` is about.
      intro x _ y hy heq hR
      have hvisit := congrArg Prod.fst (h y hy)
      rw [heq, ← hR] at hvisit
      exact hvisit)
  obtain ⟨y, hy, hR, heq⟩ := hthere x hx
  have hvisit := h y hy
  rw [heq, ← hR] at hvisit
  rw [hvisit, hR]
  rfl

/-- **A pass over a program at rest that only observes** returns the workspace. -/
theorem Observes.sweep_eq (h : w.Observes memory visit) (hw : w.Rested)
    (hclosed : (w.context.env.layoutEnd w.program.leaves).inner = []) :
    w.sweep memory visit id = (w, false, memory) := by
  have hrest : w.context.env.restart = w.context.env := hw
  -- The program is returned because every statement is, and the context because the walk ends where
  -- the layout does and goes back to the beginning from there.
  rw [Workspace.sweep_eq, children_sweep_eq_self fun x hx => congrArg Prod.snd (h x hx),
    h.closing_eq, hrest]
  simp only [id, Sweep.context_mapEnv, opening, hw.restart]
  rw [Context.restart_eq hclosed]
  simp [Sweep.mapEnv, Sweep.mapContext, Context.mapEnv, Environment.restart_layoutEnd, hrest]

end Workspace

/-! ## Collapsing instructions -/

namespace Pass

theorem operandValue_of_clean {μ : Type} {s : Sweep μ} {location : Location} {i : Instruction}
    (h : (operandValue s location i).2.context.hasErrors = false) :
    s.context.hasErrors = false ∧ (operandValue s location i).2 = s := by
  cases hop : i.operand with
  | none => simpa [operandValue, hop] using h
  | some e =>
    simp only [operandValue, hop] at h ⊢
    obtain ⟨hs, v, -, hv⟩ := Sweep.evaluate_of_valueOf h
    exact ⟨hs, by rw [hv]⟩

theorem resized?_of_clean {μ : Type} {s : Sweep μ} {location : Location} {i : Instruction}
    (h : (resized? s location i).2.context.hasErrors = false) :
    s.context.hasErrors = false ∧ (resized? s location i).2 = s := by
  unfold resized? at h ⊢
  split at h
  · rename_i hr
    rw [if_pos hr]
    exact operandValue_of_clean h
  · rename_i hr
    rw [if_neg hr]
    exact ⟨h, rfl⟩

/-- Where collapsing finds no fault and changes nothing it follows the statement and returns it. -/
theorem collapse_of_quiet {s : Sweep Unit} {l : Nat × Statement}
    (h : (Visit.step collapse s l).Quiet) :
    s.Quiet ∧ s.context.env.Followable l.2.item ∧
      collapse s l.1 l.2 = (s.mapEnv (·.follow l.2.item), .leaf l.1 l.2) := by
  obtain ⟨id, location, item⟩ := l
  obtain ⟨hclean, hunchanged⟩ := h
  cases item with
  | instruction i =>
    simp only [Visit.step, collapse] at hclean hunchanged ⊢
    cases hr : resized? s location i with
    | mk resized s' =>
      cases resized with
      -- An instruction of another size counts as a change.
      | some i' => simp [hr] at hunchanged
      | none =>
        simp only [hr] at hclean hunchanged
        have hs : s.context.hasErrors = false ∧ (resized? s location i).2 = s :=
          resized?_of_clean (by rw [hr]; exact (Context.followable_of_follow hclean).1)
        obtain rfl : s' = s := by simpa [hr] using hs.2
        have hf := (Context.followable_of_follow hclean).2
        exact ⟨⟨hs.1, hunchanged⟩, hf, Prod.ext (Sweep.follow_eq hf) rfl⟩
  | _ =>
    obtain ⟨hs, hf⟩ := Context.followable_of_follow hclean
    exact ⟨⟨hs, hunchanged⟩, hf, Prod.ext (Sweep.follow_eq hf) rfl⟩

theorem observes_collapse {w : Workspace} (h : (w.closing () collapse).Quiet) :
    w.Observes () collapse := fun x hx =>
  (collapse_of_quiet
    (forall_reached_of_foldl (fun _ _ hs => (collapse_of_quiet hs).1) h x hx)).2.2

end Pass

/-! ## Open modes made absolute -/

/-- The instruction with an open mode made absolute. -/
def Instruction.normalized (i : Instruction) : Instruction :=
  match i.addressing with
  | .resolved _ => i
  | .pending shape => i.inMode shape.absolute

@[simp] theorem Instruction.size_normalized (i : Instruction) : i.normalized.size = i.size := by
  obtain ⟨mnemonic, addressing, operand⟩ := i
  cases addressing with
  | resolved mode => rfl
  | pending shape => cases shape <;> rfl

def Item.normalized : Item → Item
  | .instruction i => .instruction i.normalized
  | item => item

/-- The statement with an open mode made absolute. -/
def Statement.normalized (st : Statement) : Statement :=
  { st with item := st.item.normalized }

@[simp] theorem Statement.item_normalized (st : Statement) :
    st.normalized.item = st.item.normalized := rfl

@[simp] theorem Item.normalized_eq_label {item : Item} {symbol : Symbol} {value : Expr} :
    item.normalized = .label symbol value ↔ item = .label symbol value := by
  cases item <;> simp [Item.normalized]

namespace Environment

variable {ν : Nesting} {env : Environment} {leaves : List (Nat × Statement)}

@[simp] theorem follow_normalized (item : Item) : env.follow item.normalized = env.follow item := by
  cases item <;> simp [Item.normalized, follow]

@[simp] theorem followable_normalized (item : Item) :
    env.Followable item.normalized ↔ env.Followable item := by
  cases item <;> simp [Item.normalized, Followable]

/-- **Making open modes absolute** keeps the layout. -/
theorem layout_normalized :
    env.layout (leaves.map fun l => (l.1, l.2.normalized)) =
      (env.layout leaves).map fun x => (x.1, x.2.1, x.2.2.normalized) := by
  simp [layout, reached_map]

theorem layoutEnd_normalized :
    env.layoutEnd (leaves.map fun l => (l.1, l.2.normalized)) = env.layoutEnd leaves := by
  simp [layoutEnd, List.foldl_map]

theorem Nested.normalized (h : Nested ν env leaves) :
    Nested ν env (leaves.map fun l => (l.1, l.2.normalized)) := by
  intro x hx
  rw [layout_normalized] at hx
  obtain ⟨y, hy, rfl⟩ := List.mem_map.mp hx
  exact h y hy

theorem Settled.normalized (h : env.Settled leaves) :
    env.Settled (leaves.map fun l => (l.1, l.2.normalized)) := by
  intro x hx symbol value hitem
  rw [layout_normalized] at hx
  obtain ⟨y, hy, rfl⟩ := List.mem_map.mp hx
  exact h y hy symbol value (Item.normalized_eq_label.mp hitem)

theorem Walkable.normalized (h : env.Walkable leaves) :
    env.Walkable (leaves.map fun l => (l.1, l.2.normalized)) := by
  refine ⟨fun x hx => ?_, by rw [layoutEnd_normalized]; exact h.closed⟩
  rw [layout_normalized] at hx
  obtain ⟨y, hy, rfl⟩ := List.mem_map.mp hx
  exact (followable_normalized _).mpr (h.followable y hy)

end Environment

namespace Context

theorem restart_followStructure (c : Context) (st : Statement) :
    (c.followStructure st).env.restart = c.env.restart := by
  obtain ⟨location, item⟩ := st
  cases item with
  | scopeEnd => cases hi : c.env.inner <;>
      simp [followStructure, followStructure?, Environment.exitScope?, hi, error,
        Environment.restart]
  | _ => rfl

end Context

namespace Pass

theorem snd_normalizeModes (s : Sweep Unit) (id : Nat) (st : Statement) :
    (normalizeModes s id st).2 = .leaf id st.normalized := by
  obtain ⟨location, item⟩ := st
  cases item with
  | instruction i =>
    obtain ⟨mnemonic, addressing, operand⟩ := i
    cases addressing <;> rfl
  | _ => rfl

theorem leaves_normalizeModes (w : Workspace) :
    (w.sweep () normalizeModes id).1.program.leaves =
      w.program.leaves.map fun l => (l.1, l.2.normalized) := by
  rw [Workspace.sweep_eq]
  simp only [Program.leaves, Program.root, Node.leaves]
  rw [Node.leavesAll_traverseAll]
  simp only [snd_normalizeModes, Node.leaves]
  exact flatMap_reached fun l : Nat × Statement => (l.1, l.2.normalized)

end Pass
end Assembler6502
