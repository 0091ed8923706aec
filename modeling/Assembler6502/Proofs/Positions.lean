import Assembler6502.Proofs.Walk

/-!
# Positions in a program

A pass puts nodes in the places of statements and keeps everything above them, so a position that
leads to a node before a pass leads to what took its place behind it. What takes the place of a
node depends on the state in which the pass comes to the position, and that is a fold over the
statements before it.

## Main definitions

* `Node.at?`: the node at a position
* `Node.before`: the statements before a position
* `Workspace.stateAt`: the state in which a sweep comes to a position

## Main results

* `Node.exists_position`: a walk comes to every statement at its position
* `Node.at?_traverse`: what takes the place of the node at a position
* `Node.before_traverse`: what takes the place of the statements before a position
* `Workspace.at?_sweep`, `Workspace.before_sweep`: positions behind a sweep
-/

namespace Assembler6502

namespace Node

/-- The node at a position. The numbers of a position say which child to go to, from the top. -/
def at? : List Nat → Node → Option Node
  | [], n => some n
  | i :: π, sequence _ _ children => children[i]?.bind (at? π)
  | _ :: _, leaf _ _ => none

/-- The statements before a position. -/
def before : List Nat → Node → List (Nat × Statement)
  | [], _ => []
  | i :: π, sequence _ _ children =>
    leavesAll (children.take i) ++ (children[i]?.map (before π)).getD []
  | _ :: _, leaf _ _ => []

theorem at?_cons {n m : Node} {i : Nat} {π : List Nat} (h : n.at? (i :: π) = some m) :
    ∃ id location children c, n = sequence id location children ∧ children[i]? = some c ∧
      c.at? π = some m := by
  cases n with
  | leaf id st => cases h
  | sequence id location children =>
    obtain ⟨c, hc, hm⟩ := Option.bind_eq_some_iff.mp h
    exact ⟨id, location, children, c, rfl, hc, hm⟩

theorem leavesAll_append (ns ms : List Node) :
    leavesAll (ns ++ ms) = leavesAll ns ++ leavesAll ms := by
  induction ns with
  | nil => rfl
  | cons n rest ih => simp [leavesAll, ih]

/-- The statements of the node at a position stand behind those before the position. -/
theorem leaves_eq_before {n m : Node} {π : List Nat} (h : n.at? π = some m) :
    ∃ rest, n.leaves = n.before π ++ (m.leaves ++ rest) := by
  induction π generalizing n with
  | nil =>
    cases h
    exact ⟨[], by simp [before]⟩
  | cons i π ih =>
    obtain ⟨id, location, children, c, rfl, hc, hm⟩ := at?_cons h
    obtain ⟨rest, hrest⟩ := ih hm
    -- What follows the position is the rest of the child, and then the children behind it.
    have hsplit : children = children.take i ++ (c :: children.drop (i + 1)) := by
      obtain ⟨hi, rfl⟩ := List.getElem?_eq_some_iff.mp hc
      simp
    have hall := congrArg leavesAll hsplit
    rw [leavesAll_append, leavesAll] at hall
    refine ⟨rest ++ leavesAll (children.drop (i + 1)), ?_⟩
    simp only [leaves, before, hc, Option.map_some, Option.getD_some, hall, hrest,
      List.append_assoc]

theorem at?_append (π ρ : List Nat) (n : Node) : n.at? (π ++ ρ) = (n.at? π).bind (at? ρ) := by
  induction π generalizing n with
  | nil => rfl
  | cons i π ih =>
    cases n with
    | leaf id st => rfl
    | sequence id location children =>
      simp only [List.cons_append, at?]
      cases children[i]? with
      | none => rfl
      | some c => exact ih c

/-- The statements before a position inside a node are those before the node, and then those inside
it. -/
theorem before_append {π : List Nat} {n m : Node} (h : n.at? π = some m) (ρ : List Nat) :
    n.before (π ++ ρ) = n.before π ++ m.before ρ := by
  induction π generalizing n with
  | nil =>
    obtain rfl : n = m := Option.some.inj h
    rfl
  | cons i π ih =>
    obtain ⟨id, location, children, c, rfl, hc, hm⟩ := at?_cons h
    simp only [List.cons_append, before, hc, Option.map_some, Option.getD_some, ih hm,
      List.append_assoc]

theorem mem_leaves_of_mem_before {n m : Node} {π : List Nat} (h : n.at? π = some m)
    {l : Nat × Statement} (hl : l ∈ n.before π) : l ∈ n.leaves := by
  obtain ⟨rest, hrest⟩ := leaves_eq_before h
  rw [hrest]
  exact List.mem_append_left _ hl

section Reached

variable {σ : Type} (f : σ → Nat × Statement → σ)

mutual

/-- A walk along the statements of a node comes to each of them at its position. -/
theorem exists_position (s : σ) : ∀ (n : Node), ∀ x ∈ reached f s n.leaves,
    ∃ π, n.at? π = some (leaf x.2.1 x.2.2) ∧ x.1 = (n.before π).foldl f s
  | leaf id st, x, hx => by
    simp only [leaves, reached_cons, reached_nil, List.mem_singleton] at hx
    subst hx
    exact ⟨[], rfl, rfl⟩
  | sequence id location children, x, hx => by
    rw [leaves] at hx
    obtain ⟨i, c, π, hc, hπ, hx⟩ := exists_position_child s children x hx
    exact ⟨i :: π, by simp only [at?, hc, Option.bind_some, hπ], by
      simp only [before, hc, Option.map_some, Option.getD_some, hx]⟩

theorem exists_position_child (s : σ) : ∀ (ns : List Node), ∀ x ∈ reached f s (leavesAll ns),
    ∃ i c π, ns[i]? = some c ∧ c.at? π = some (leaf x.2.1 x.2.2) ∧
      x.1 = (leavesAll (ns.take i) ++ c.before π).foldl f s
  | [], x, hx => by simp [leavesAll] at hx
  | n :: rest, x, hx => by
    rw [leavesAll, reached_append] at hx
    rcases List.mem_append.mp hx with hx | hx
    · obtain ⟨π, hπ, hx⟩ := exists_position s n x hx
      exact ⟨0, n, π, rfl, hπ, hx⟩
    · obtain ⟨i, c, π, hc, hπ, hx⟩ := exists_position_child (n.leaves.foldl f s) rest x hx
      refine ⟨i + 1, c, π, by simpa using hc, hπ, ?_⟩
      rw [hx, List.take_succ_cons, leavesAll, List.append_assoc, List.foldl_append (l := n.leaves)]

end

end Reached

/-! ## Walks -/

section Traverse

variable {σ : Type} {visit : σ → Nat → Statement → σ × Node} {s : σ}

theorem take_traverseAll (ns : List Node) (i : Nat) :
    (traverseAll visit s ns).2.take i = (traverseAll visit s (ns.take i)).2 := by
  induction ns generalizing s i with
  | nil => simp [traverseAll]
  | cons n rest ih =>
    cases i with
    | zero => simp [traverseAll]
    | succ i => simp [traverseAll, ih]

/-- What takes the place of a child depends on the statements of the children before it. -/
theorem getElem?_traverseAll {ns : List Node} {i : Nat} {c : Node} (h : ns[i]? = some c) :
    (traverseAll visit s ns).2[i]? =
      some (traverse visit
        ((leavesAll (ns.take i)).foldl (fun s l => (visit s l.1 l.2).1) s) c).2 := by
  induction ns generalizing s i with
  | nil => simp at h
  | cons n rest ih =>
    cases i with
    | zero =>
      obtain rfl : n = c := by simpa using h
      simp [traverseAll, leavesAll]
    | succ i =>
      -- Behind the first child the walk is in the state behind the leaves of that child.
      simp only [traverseAll, List.getElem?_cons_succ, List.take_succ_cons, leavesAll,
        List.foldl_append, ← fst_traverse]
      exact ih (by simpa using h)

/-- **What takes the place of the node at a position** is what the walk makes of it in the state in
which it comes there. -/
theorem at?_traverse {n m : Node} {π : List Nat} (h : n.at? π = some m) :
    (traverse visit s n).2.at? π =
      some (traverse visit ((n.before π).foldl (fun s l => (visit s l.1 l.2).1) s) m).2 := by
  induction π generalizing n s with
  | nil =>
    cases h
    simp [at?, before]
  | cons i π ih =>
    obtain ⟨id, location, children, c, rfl, hc, hm⟩ := at?_cons h
    simp only [traverse, at?, getElem?_traverseAll hc, Option.bind_some, before, hc,
      Option.map_some, Option.getD_some, List.foldl_append]
    exact ih hm

/-- **What takes the place of the statements before a position** stands before the position. -/
theorem before_traverse {n m : Node} {π : List Nat} (h : n.at? π = some m) :
    (traverse visit s n).2.before π =
      (reached (fun s l => (visit s l.1 l.2).1) s (n.before π)).flatMap
        fun x => (visit x.1 x.2.1 x.2.2).2.leaves := by
  induction π generalizing n s with
  | nil => simp [before]
  | cons i π ih =>
    obtain ⟨id, location, children, c, rfl, hc, hm⟩ := at?_cons h
    simp only [traverse, before, getElem?_traverseAll hc, hc, Option.map_some, Option.getD_some,
      take_traverseAll, leavesAll_traverseAll, reached_append, List.flatMap_append, ih hm]

end Traverse

end Node

/-! ## Sweeps -/

namespace Workspace

variable {μ : Type} {w : Workspace} {memory : μ} {visit : Visit μ} {close : Context → Context}
  {π : List Nat} {n : Node}

/-- The state in which a sweep comes to a position. -/
def stateAt (w : Workspace) (memory : μ) (visit : Visit μ) (π : List Nat) : Sweep μ :=
  (w.program.root.before π).foldl visit.step (w.opening memory)

/-- What a sweep puts at a position is what it makes of the node there in the state in which it
comes to the position. -/
theorem at?_sweep (h : w.program.root.at? π = some n) :
    (w.sweep memory visit close).1.program.root.at? π =
      some (Node.traverse visit (w.stateAt memory visit π) n).2 := by
  rw [Workspace.sweep_eq]
  exact Node.at?_traverse h

theorem exists_stateAt {x : Sweep μ × Nat × Statement} (hx : x ∈ w.visits memory visit) :
    ∃ π, w.program.root.at? π = some (.leaf x.2.1 x.2.2) ∧ x.1 = w.stateAt memory visit π :=
  Node.exists_position visit.step (w.opening memory) w.program.root x hx

theorem mem_visits (h : w.program.root.at? π = some n) {x : Sweep μ × Nat × Statement}
    (hx : x ∈ reached visit.step (w.stateAt memory visit π) n.leaves) :
    x ∈ w.visits memory visit := by
  obtain ⟨rest, hleaves⟩ := Node.leaves_eq_before h
  rw [visits, Program.leaves, hleaves, reached_append, reached_append]
  exact List.mem_append_right _ (List.mem_append_left _ hx)

theorem mem_visits_of_before (h : w.program.root.at? π = some n) {x : Sweep μ × Nat × Statement}
    (hx : x ∈ reached visit.step (w.opening memory) (w.program.root.before π)) :
    x ∈ w.visits memory visit := by
  obtain ⟨rest, hleaves⟩ := Node.leaves_eq_before h
  rw [visits, Program.leaves, hleaves, reached_append]
  exact List.mem_append_left _ hx

theorem before_sweep (h : w.program.root.at? π = some n) :
    (w.sweep memory visit close).1.program.root.before π =
      (reached visit.step (w.opening memory) (w.program.root.before π)).flatMap
        fun x => (visit x.1 x.2.1 x.2.2).2.leaves := by
  rw [Workspace.sweep_eq]
  exact Node.before_traverse h

theorem at?_sweep_of_returned (h : w.program.root.at? π = some n)
    (hreturned : ∀ x ∈ w.visits memory visit, x.2 ∈ n.leaves →
      (visit x.1 x.2.1 x.2.2).2 = .leaf x.2.1 x.2.2) :
    (w.sweep memory visit close).1.program.root.at? π = some n := by
  rw [at?_sweep h]
  refine congrArg some (Node.traverse_eq_self visit _ n fun x hx => ?_)
  exact hreturned x (mem_visits h hx) (mem_of_mem_reached hx)

end Workspace
end Assembler6502
