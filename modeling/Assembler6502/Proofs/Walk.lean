import Assembler6502.Pass.Sweep

/-!
# Walks

A pass goes over the tree of a program, but what it does to its state depends on the statements at
the leaves alone, in their order. A sweep is therefore a fold over the leaves, and a fact about a
sweep is a fact about one step carried along the fold: forwards, as an invariant, or backwards, as
something that can never be undone and so was absent all the time if it is absent in the end.

## Main definitions

* `reached f s l`: the states in which a walk reaches the elements of a list
* `Workspace.opening`, `Workspace.closing`: the state in which a sweep begins and ends
* `Workspace.visits`: the states in which a sweep reaches the statements of the program

## Main results

* `lockstep`: two walks over the same list keep a relation that every step keeps
* `Node.fst_traverseAll`: a pass over a tree is a fold over its leaves
* `Node.leavesAll_traverseAll`: the leaves behind a pass are those that the visits return
* `Node.traverseAll_eq_self`: a pass that returns every leaf returns the tree
* `Node.traverseAll_congr`: passes that do the same wherever one of them comes
-/

namespace Assembler6502

/-! ## Walks along a list -/

section Reached

variable {σ τ α : Type}

/-- The states in which a walk reaches the elements of a list, together with the elements. -/
def reached (f : σ → α → σ) : σ → List α → List (σ × α)
  | _, [] => []
  | s, a :: rest => (s, a) :: reached f (f s a) rest

variable {f : σ → α → σ} {s : σ} {l : List α}

@[simp] theorem reached_nil : reached f s [] = [] := rfl

@[simp] theorem reached_cons {a : α} :
    reached f s (a :: l) = (s, a) :: reached f (f s a) l := rfl

theorem flatMap_reached {β : Type} (h : α → β) :
    (reached f s l).flatMap (fun x => [h x.2]) = l.map h := by
  induction l generalizing s with
  | nil => rfl
  | cons a rest ih => simp [ih]

theorem mem_of_mem_reached {x : σ × α} (h : x ∈ reached f s l) : x.2 ∈ l := by
  have hall : (reached f s l).flatMap (fun x => [x.2]) = l.map id := flatMap_reached id
  rw [List.map_id] at hall
  rw [← hall]
  exact List.mem_flatMap.mpr ⟨x, h, List.mem_singleton_self _⟩

theorem of_foldl {P : σ → Prop} (hP : ∀ s a, P (f s a) → P s) (h : P (l.foldl f s)) :
    P s := by
  induction l generalizing s with
  | nil => exact h
  | cons a rest ih => exact hP s a (ih h)

/-- What a step can only have kept, and holds in the end, holds behind every step. -/
theorem forall_reached_of_foldl {P : σ → Prop} (hP : ∀ s a, P (f s a) → P s)
    (h : P (l.foldl f s)) : ∀ x ∈ reached f s l, P (f x.1 x.2) := by
  induction l generalizing s with
  | nil => simp
  | cons a rest ih =>
    intro x hx
    rcases List.mem_cons.mp hx with rfl | hx
    · exact of_foldl hP h
    · exact ih h x hx

/-- What every step can only add to holds between the state behind a step and the end. -/
theorem forall_reached_le {R : σ → σ → Prop} (hrefl : ∀ s, R s s)
    (htrans : ∀ {s t u}, R s t → R t u → R s u) (hstep : ∀ s a, R s (f s a)) :
    R s (l.foldl f s) ∧ ∀ x ∈ reached f s l, R (f x.1 x.2) (l.foldl f s) := by
  induction l generalizing s with
  | nil => exact ⟨hrefl s, by simp⟩
  | cons a rest ih =>
    obtain ⟨hend, hall⟩ := ih (s := f s a)
    refine ⟨htrans (hstep s a) hend, fun x hx => ?_⟩
    rcases List.mem_cons.mp hx with rfl | hx
    · exact hend
    · exact hall x hx

/-- What holds at the beginning of a walk and not at its end is lost in one of its steps. -/
theorem exists_reached_loss {P : σ → Prop} (hs : P s) (hend : ¬ P (l.foldl f s)) :
    ∃ x ∈ reached f s l, P x.1 ∧ ¬ P (f x.1 x.2) := by
  induction l generalizing s with
  | nil => exact absurd hs hend
  | cons a rest ih =>
    by_cases ha : P (f s a)
    · obtain ⟨x, hx, h⟩ := ih ha hend
      exact ⟨x, List.mem_cons_of_mem _ hx, h⟩
    · exact ⟨(s, a), List.mem_cons_self, hs, ha⟩

/-- An invariant of the steps holds wherever the walk comes, and at its end. -/
theorem foldl_invariant {P : σ → Prop} (hs : P s)
    (hstep : ∀ x ∈ reached f s l, P x.1 → P (f x.1 x.2)) :
    P (l.foldl f s) ∧ ∀ x ∈ reached f s l, P x.1 := by
  induction l generalizing s with
  | nil => exact ⟨hs, by simp⟩
  | cons a rest ih =>
    have hs' : P (f s a) := hstep (s, a) List.mem_cons_self hs
    obtain ⟨hend, hall⟩ := ih hs' fun x hx => hstep x (List.mem_cons_of_mem _ hx)
    refine ⟨hend, fun x hx => ?_⟩
    rcases List.mem_cons.mp hx with rfl | hx
    · exact hs
    · exact hall x hx

/-- **Two walks in lockstep** keep a relation that their steps keep: it holds at the end, and
wherever one of the walks comes the other one comes, too. -/
theorem lockstep {R : σ → τ → Prop} {g : τ → α → τ} {t : τ} (hR : R s t)
    (hstep : ∀ x ∈ reached f s l, ∀ y ∈ reached g t l, y.2 = x.2 → R x.1 y.1 →
      R (f x.1 x.2) (g y.1 x.2)) :
    R (l.foldl f s) (l.foldl g t) ∧
      (∀ x ∈ reached f s l, ∃ y ∈ reached g t l, R x.1 y.1 ∧ y.2 = x.2) ∧
      ∀ y ∈ reached g t l, ∃ x ∈ reached f s l, R x.1 y.1 ∧ y.2 = x.2 := by
  -- The states change from step to step, so the induction is over all pairs that are related.
  induction l generalizing s t with
  | nil => exact ⟨hR, by simp, by simp⟩
  | cons a rest ih =>
    have hR' : R (f s a) (g t a) :=
      hstep (s, a) List.mem_cons_self (t, a) List.mem_cons_self rfl hR
    obtain ⟨hend, hthere, hback⟩ := ih hR' fun x hx y hy =>
      hstep x (List.mem_cons_of_mem _ hx) y (List.mem_cons_of_mem _ hy)
    refine ⟨hend, fun x hx => ?_, fun y hy => ?_⟩
    · rcases List.mem_cons.mp hx with rfl | hx
      · exact ⟨(t, a), List.mem_cons_self, hR, rfl⟩
      · obtain ⟨y, hy, h⟩ := hthere x hx
        exact ⟨y, List.mem_cons_of_mem _ hy, h⟩
    · rcases List.mem_cons.mp hy with rfl | hy
      · exact ⟨(s, a), List.mem_cons_self, hR, rfl⟩
      · obtain ⟨x, hx, h⟩ := hback y hy
        exact ⟨x, List.mem_cons_of_mem _ hx, h⟩

theorem reached_append {m : List α} :
    reached f s (l ++ m) = reached f s l ++ reached f (l.foldl f s) m := by
  induction l generalizing s with
  | nil => rfl
  | cons a rest ih => simp [ih]

theorem reached_map {β : Type} (h : β → α) (l : List β) :
    reached f s (l.map h) =
      (reached (fun s b => f s (h b)) s l).map fun x => (x.1, h x.2) := by
  induction l generalizing s with
  | nil => rfl
  | cons b rest ih => simp [ih]

end Reached

/-! ## Walks over a tree -/

namespace Node

section Traverse

variable {σ : Type} (visit : σ → Nat → Statement → σ × Node)

mutual

/-- A walk over a node is a fold over its leaves. -/
theorem fst_traverse (s : σ) : ∀ n : Node,
    (traverse visit s n).1 = n.leaves.foldl (fun s l => (visit s l.1 l.2).1) s
  | leaf id statement => by simp [traverse, leaves]
  | sequence id location children => by
    simp only [traverse, leaves]
    exact fst_traverseAll s children

theorem fst_traverseAll (s : σ) : ∀ ns : List Node,
    (traverseAll visit s ns).1 = (leavesAll ns).foldl (fun s l => (visit s l.1 l.2).1) s
  | [] => by simp [traverseAll, leavesAll]
  | n :: rest => by
    simp only [traverseAll, leavesAll, List.foldl_append]
    rw [fst_traverseAll _ rest, fst_traverse s n]

end

mutual

theorem leaves_traverse (s : σ) : ∀ n : Node,
    (traverse visit s n).2.leaves =
      (reached (fun s l => (visit s l.1 l.2).1) s n.leaves).flatMap
        fun x => (visit x.1 x.2.1 x.2.2).2.leaves
  | leaf id statement => by simp [traverse, leaves]
  | sequence id location children => by
    simp only [traverse, leaves]
    exact leavesAll_traverseAll s children

theorem leavesAll_traverseAll (s : σ) : ∀ ns : List Node,
    leavesAll (traverseAll visit s ns).2 =
      (reached (fun s l => (visit s l.1 l.2).1) s (leavesAll ns)).flatMap
        fun x => (visit x.1 x.2.1 x.2.2).2.leaves
  | [] => by simp [traverseAll, leavesAll]
  | n :: rest => by
    simp only [traverseAll, leavesAll, reached_append, List.flatMap_append]
    rw [leaves_traverse s n, leavesAll_traverseAll _ rest, fst_traverse]

end

mutual

theorem traverse_eq_self (s : σ) : ∀ n : Node,
    (∀ x ∈ reached (fun s l => (visit s l.1 l.2).1) s n.leaves,
      (visit x.1 x.2.1 x.2.2).2 = leaf x.2.1 x.2.2) → (traverse visit s n).2 = n
  | leaf id statement, h => h (s, id, statement) (by simp [leaves])
  | sequence id location children, h => by
    simp only [traverse]
    rw [traverseAll_eq_self s children h]

/-- A walk that returns every leaf of a list of nodes returns the nodes. -/
theorem traverseAll_eq_self (s : σ) : ∀ ns : List Node,
    (∀ x ∈ reached (fun s l => (visit s l.1 l.2).1) s (leavesAll ns),
      (visit x.1 x.2.1 x.2.2).2 = leaf x.2.1 x.2.2) → (traverseAll visit s ns).2 = ns
  | [], _ => rfl
  | n :: rest, h => by
    simp only [leavesAll, reached_append, List.mem_append] at h
    simp only [traverseAll, fst_traverse]
    -- The rest is walked from the state behind the leaves of the first node.
    rw [traverse_eq_self s n fun x hx => h x (.inl hx),
      traverseAll_eq_self _ rest fun x hx => h x (.inr hx)]

end

mutual

theorem traverse_congr {visit : σ → Nat → Statement → σ × Node}
    {visit' : σ → Nat → Statement → σ × Node} (s : σ) : ∀ n : Node,
    (∀ x ∈ reached (fun s l => (visit s l.1 l.2).1) s n.leaves,
      visit x.1 x.2.1 x.2.2 = visit' x.1 x.2.1 x.2.2) → traverse visit s n = traverse visit' s n
  | leaf id statement, h => h (s, id, statement) (by simp [leaves])
  | sequence id location children, h => by
    simp only [traverse]
    rw [traverseAll_congr s children h]

theorem traverseAll_congr {visit : σ → Nat → Statement → σ × Node}
    {visit' : σ → Nat → Statement → σ × Node} (s : σ) : ∀ ns : List Node,
    (∀ x ∈ reached (fun s l => (visit s l.1 l.2).1) s (leavesAll ns),
      visit x.1 x.2.1 x.2.2 = visit' x.1 x.2.1 x.2.2) →
        traverseAll visit s ns = traverseAll visit' s ns
  | [], _ => rfl
  | n :: rest, h => by
    simp only [leavesAll, reached_append, List.mem_append] at h
    have hnode := traverse_congr s n fun x hx => h x (.inl hx)
    have hrest := traverseAll_congr (traverse visit s n).1 rest fun x hx =>
      h x (.inr (by rwa [fst_traverse] at hx))
    simp only [traverseAll]
    rw [hrest, hnode]

end

end Traverse

end Node

/-! ## Sweeps -/

variable {μ : Type}

/-- What a pass does to its state at a leaf. -/
def Visit.step (visit : Visit μ) (s : Sweep μ) (l : Nat × Statement) : Sweep μ :=
  (visit s l.1 l.2).1

namespace Workspace

/-- The state in which a sweep begins. -/
def opening (w : Workspace) (memory : μ) : Sweep μ :=
  { context := w.context.restart, size := w.program.size, memory }

/-- The state in which a sweep has gone over the whole program. -/
def closing (w : Workspace) (memory : μ) (visit : Visit μ) : Sweep μ :=
  w.program.leaves.foldl visit.step (w.opening memory)

/-- The states in which a sweep reaches the statements of the program, together with the
statements. -/
def visits (w : Workspace) (memory : μ) (visit : Visit μ) : List (Sweep μ × Nat × Statement) :=
  reached visit.step (w.opening memory) w.program.leaves

theorem sweep_eq (w : Workspace) (memory : μ) (visit : Visit μ) (close : Context → Context) :
    w.sweep memory visit close =
      (⟨⟨(Node.traverseAll visit (w.opening memory) w.program.children).2,
          (w.closing memory visit).size⟩, (close (w.closing memory visit).context).restart⟩,
        (w.closing memory visit).changed, (w.closing memory visit).memory) := by
  have h : (Node.traverseAll visit (w.opening memory) w.program.children).1 =
      w.closing memory visit := Node.fst_traverseAll visit _ _
  simp only [sweep, Sweepable.sweep, Program.sweep, ← h]
  rfl

/-- Passes that do the same wherever the first one comes are the same sweep. -/
theorem sweep_congr {w : Workspace} {memory : μ} {visit visit' : Visit μ}
    {close : Context → Context}
    (h : ∀ x ∈ w.visits memory visit, visit x.1 x.2.1 x.2.2 = visit' x.1 x.2.1 x.2.2) :
    w.sweep memory visit close = w.sweep memory visit' close := by
  have htree := Node.traverseAll_congr (w.opening memory) w.program.children h
  unfold opening at htree
  simp only [sweep, Sweepable.sweep, Program.sweep, htree]

theorem children_sweep_eq_self {w : Workspace} {memory : μ} {visit : Visit μ}
    (h : ∀ x ∈ w.visits memory visit, (visit x.1 x.2.1 x.2.2).2 = .leaf x.2.1 x.2.2) :
    (Node.traverseAll visit (w.opening memory) w.program.children).2 = w.program.children :=
  Node.traverseAll_eq_self visit _ _ h

end Workspace
end Assembler6502
