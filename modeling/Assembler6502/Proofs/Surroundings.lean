import Assembler6502.Proofs.Arena

/-!
# Surroundings of statements

Behind the expansion of macros every statement has its surroundings for good: the scopes that are
open, and the segment with whether it takes bytes. A pass puts instructions in the place of an
instruction, which change nothing of this, and keeps everything else and all numbers. So the node
with a number stands in the same surroundings before and behind a pass, and what is inserted stands
in those of the statement that it replaces. As numbers tell nodes apart, whatever two passes come to
under the same number they come to in the same surroundings.

## Main definitions

* `Program.Stands`: the node with a number stands in surroundings
* `Visited`, `Workspace.visitedBy`: what a pass comes to, and in which environment
* `Pass.insertion?`: what the extension of branches inserts at a statement

## Main results

* `Workspace.stands_sweep`, `Workspace.stands_of_visits`: nodes behind a pass stand where they
  stood, or where the statement stood that they replace
* `Assembly.surroundings_agree`: all passes behind the expansion of macros come to a statement in
  the same surroundings
-/

namespace Assembler6502

/-! ## Where nodes stand -/

namespace Surroundings

/-- The surroundings behind some statements. -/
def behind (leaves : List (Nat × Statement)) : Surroundings :=
  leaves.foldl (fun σ l => σ.follow l.2.item) {}

theorem foldl_follow_of_instructions {leaves : List (Nat × Statement)}
    (h : ∀ l ∈ leaves, ∃ i, l.2.item = .instruction i) (σ : Surroundings) :
    leaves.foldl (fun σ l => σ.follow l.2.item) σ = σ := by
  refine (foldl_invariant (P := fun τ => τ = σ) rfl fun x hx hσ => ?_).1
  obtain ⟨i, hi⟩ := h x.2 (mem_of_mem_reached hx)
  rw [hi, hσ]
  rfl

end Surroundings

/-- The node with a number stands in surroundings: those behind the statements before it. -/
def Program.Stands (p : Program) (n : Nat) (σ : Surroundings) : Prop :=
  ∃ π node, p.root.at? π = some node ∧ node.number = n ∧
    Surroundings.behind (p.root.before π) = σ

theorem Program.Stands.congr {p q : Program} {n : Nat} {σ : Surroundings} (h : p.Stands n σ)
    (hroot : q.root = p.root) : q.Stands n σ := by
  rw [Stands, hroot]
  exact h

theorem Node.exists_at?_of_mem_numbers {r : Node} {n : Nat} (h : n ∈ r.numbers) :
    ∃ π node, r.at? π = some node ∧ node.number = n := by
  obtain ⟨⟨π, c⟩, hmem, rfl⟩ := List.mem_map.mp ((perm_numbers r).mem_iff.mpr h)
  obtain ⟨node, hnode, rfl⟩ := mem_outline_iff_at?.mp hmem
  exact ⟨π, node, hnode, rfl⟩

/-- Where numbers tell nodes apart, a number has one position, and so it has its surroundings. -/
theorem Program.Stands.unique {p : Program} {n : Nat} {σ τ : Surroundings} (hp : p.Numbered)
    (h : p.Stands n σ) (h' : p.Stands n τ) : σ = τ := by
  obtain ⟨π, node, hnode, rfl, rfl⟩ := h
  obtain ⟨ρ, other, hother, hnumber, rfl⟩ := h'
  have hnodup : (p.root.outline.map (·.2.1)).Nodup :=
    (Node.perm_numbers p.root).nodup_iff.mpr hp.nodup
  have hπ : (π, node.number, node.cell) ∈ p.root.outline :=
    Node.mem_outline_iff_at?.mpr ⟨node, hnode, rfl⟩
  have hρ : (ρ, other.number, other.cell) ∈ p.root.outline :=
    Node.mem_outline_iff_at?.mpr ⟨other, hother, rfl⟩
  obtain rfl : ρ = π := congrArg Prod.fst (List.inj_on_of_nodup_map hnodup hρ hπ hnumber)
  rfl

/-! ## Passes -/

section Sweep

variable {μ : Type} {visit : Visit μ}

theorem Visit.Faithful.surroundings_foldl (hv : visit.Faithful) (s : Sweep μ)
    (leaves : List (Nat × Statement)) :
    (leaves.foldl visit.step s).context.env.surroundings =
      leaves.foldl (fun σ l => σ.follow l.2.item) s.context.env.surroundings := by
  induction leaves generalizing s with
  | nil => rfl
  | cons l rest ih => rw [List.foldl_cons, List.foldl_cons, ih, hv.surroundings]

/-- What a faithful pass leaves of statements makes the same surroundings. -/
theorem Visit.Faithful.surroundings_flatMap (hv : visit.Faithful) (s : Sweep μ)
    (leaves : List (Nat × Statement)) (σ : Surroundings) :
    ((reached visit.step s leaves).flatMap fun x => (visit x.1 x.2.1 x.2.2).2.leaves).foldl
        (fun σ l => σ.follow l.2.item) σ =
      leaves.foldl (fun σ l => σ.follow l.2.item) σ := by
  induction leaves generalizing s σ with
  | nil => rfl
  | cons l rest ih =>
    have hfirst := (hv.leaves Surroundings.follow (fun _ _ => rfl) s l σ).1
    rw [reached_cons, List.flatMap_cons, List.foldl_append, List.foldl_cons, hfirst]
    exact ih _ _

namespace Workspace

variable {w : Workspace} {memory : μ} {close : Context → Context}

theorem surroundings_stateAt (hv : visit.Faithful) (π : List Nat) :
    (w.stateAt memory visit π).context.env.surroundings =
      Surroundings.behind (w.program.root.before π) := by
  rw [stateAt, hv.surroundings_foldl, env_opening]
  rfl

theorem behind_before_sweep (hv : visit.Faithful) {π : List Nat} {n : Node}
    (h : w.program.root.at? π = some n) :
    Surroundings.behind ((w.sweep memory visit close).1.program.root.before π) =
      Surroundings.behind (w.program.root.before π) := by
  rw [before_sweep h]
  exact hv.surroundings_flatMap _ _ _

/-- **Nodes stand behind a faithful pass where they stood before it**, if it keeps numbers. -/
theorem stands_sweep {n : Nat} {σ : Surroundings}
    (h : w.program.Stands n σ) (hv : visit.Faithful) (hnumbers : visit.Numbers) :
    (w.sweep memory visit close).1.program.Stands n σ := by
  obtain ⟨π, node, hnode, rfl, rfl⟩ := h
  refine ⟨π, _, at?_sweep hnode, ?_, behind_before_sweep hv hnode⟩
  cases node with
  | leaf id st => exact hnumbers.number _ id st
  | sequence id location children => rfl

/-- **What a faithful pass puts in the place of a statement** stands where the pass came to the
statement. -/
theorem stands_of_visits (hv : visit.Faithful) {x : Sweep μ × Nat × Statement}
    (hx : x ∈ w.visits memory visit) {n : Nat} (hn : n ∈ (visit x.1 x.2.1 x.2.2).2.numbers) :
    (w.sweep memory visit close).1.program.Stands n x.1.context.env.surroundings := by
  obtain ⟨π, hleaf, hstate⟩ := exists_stateAt hx
  have hplace : (w.sweep memory visit close).1.program.root.at? π =
      some (visit x.1 x.2.1 x.2.2).2 := by
    rw [at?_sweep hleaf, Node.traverse, ← hstate]
  obtain ⟨ρ, node, hnode, hnumber⟩ := Node.exists_at?_of_mem_numbers hn
  refine ⟨π ++ ρ, node, by rw [Node.at?_append, hplace, Option.bind_some, hnode], hnumber, ?_⟩
  -- Before the node there are the statements before the place, and then those inside of it.
  have hbehind : Surroundings.behind ((w.sweep memory visit close).1.program.root.before π) =
      x.1.context.env.surroundings := by
    rw [behind_before_sweep hv hleaf, hstate, surroundings_stateAt hv]
  rw [Node.before_append hplace, Surroundings.behind, List.foldl_append]
  change List.foldl _ (Surroundings.behind _) _ = _
  rw [hbehind]
  rcases hv.recodes x.1 x.2.1 x.2.2 with hsame | ⟨i, -, hall⟩
  · have hnone : (visit x.1 x.2.1 x.2.2).2.before ρ = [] := by
      rw [hsame]
      cases ρ <;> rfl
    rw [hnone]
    rfl
  · refine Surroundings.foldl_follow_of_instructions (fun l hl => ?_) _
    obtain ⟨j, hj, -⟩ := hall l (Node.mem_leaves_of_mem_before hnode hl)
    exact ⟨j, hj⟩

end Workspace
end Sweep

namespace Pass

/-! ## What the extension of branches inserts -/

/-- What the extension of branches inserts at a statement: the sequence that takes the place of a
branch, before it is visited in turn, and the state in which that begins. -/
def insertion? (s : Sweep Unit) (id : Nat) (st : Statement) : Option (Sweep Unit × Node) :=
  match st.item.branch? with
  | none => none
  | some (m, target) =>
    let (v, s') := s.valueOf st.location target
    if fitsByte (displacement v s.context.env.pc) then none
    else
      m.inverse?.map fun inverse =>
        ({ (s'.warn st.location (.branchExtended m inverse)).setChanged with size := s.size + 2 },
          .sequence id st.location [.leaf s.size (inPlace st (skippingBranch inverse)),
            .leaf (s.size + 1) (inPlace st (jumpTo target))])

variable {s s' : Sweep Unit} {id : Nat} {st : Statement} {node : Node}

/-- An insertion is the opposite of a branch that does not reach its target, and a jump. -/
theorem insertion?_eq_some (h : insertion? s id st = some (s', node)) :
    ∃ m target inverse, st.item.branch? = some (m, target) ∧ ¬ s.Reaches st.location target ∧
      m.inverse? = some inverse ∧
      s' = { ((s.valueOf st.location target).2.warn st.location
        (.branchExtended m inverse)).setChanged with size := s.size + 2 } ∧
      node = .sequence id st.location [.leaf s.size (inPlace st (skippingBranch inverse)),
        .leaf (s.size + 1) (inPlace st (jumpTo target))] := by
  cases hb : st.item.branch? with
  | none => simp [insertion?, hb] at h
  | some branch =>
    obtain ⟨m, target⟩ := branch
    simp only [insertion?, hb] at h
    split at h
    · cases h
    · rename_i hfar
      obtain ⟨inverse, hinv, heq⟩ := Option.map_eq_some_iff.mp h
      obtain ⟨rfl, rfl⟩ := Prod.mk.inj heq
      exact ⟨m, target, inverse, rfl, hfar, hinv, rfl, rfl⟩

/-- **The extension of branches goes over what it inserts**, without inserting more. -/
theorem extendBranches_eq (s : Sweep Unit) (id : Nat) (st : Statement) :
    extendBranches s id st =
      match insertion? s id st with
      | some (s', node) => node.traverse (extendBranch none) s'
      | none => extendBranch none s id st := by
  split
  · rename_i s' node h
    obtain ⟨m, target, inverse, hb, hfar, hinv, rfl, rfl⟩ := insertion?_eq_some h
    rw [extendBranches, extendBranch_conditional hb hinv hfar]
    simp only [replaceBySkip, Node.traverse, Node.traverseAll, Sweep.size_setChanged,
      Sweep.size_warn, Sweep.size_valueOf]
  · rename_i h
    -- Nothing is inserted where there is no branch, or it reaches, or it has no opposite.
    cases hb : st.item.branch? with
    | none => rw [extendBranches, extendBranch_other hb, extendBranch_other hb]
    | some branch =>
      obtain ⟨m, target⟩ := branch
      by_cases hreach : s.Reaches st.location target
      · rw [extendBranches, extendBranch_reaching hb hreach, extendBranch_reaching hb hreach]
      · have hinv : m.inverse? = none := by
          have hfar : ¬ fitsByte (displacement (s.valueOf st.location target).1
            s.context.env.pc) = true := hreach
          simpa [insertion?, hb, hfar] using h
        by_cases hm : m = .bra
        · subst hm
          rw [extendBranches, extendBranch_always hb hreach, extendBranch_always hb hreach]
        · rw [extendBranches, extendBranch_stuck hb hm hinv hreach,
            extendBranch_stuck hb hm hinv hreach]

end Pass

/-! ## What passes come to -/

/-- What a pass comes to: the environment in which it comes to a statement, the number of the
statement, and the node that it puts in the place of the statement. -/
structure Visited where
  environment : Environment
  number : Nat
  node : Node

/-- What visits of statements in order come to. -/
def Visit.visited {μ : Type} (visit : Visit μ) (s : Sweep μ) (leaves : List (Nat × Statement)) :
    List Visited :=
  (reached visit.step s leaves).map fun x =>
    ⟨x.1.context.env, x.2.1, (visit x.1 x.2.1 x.2.2).2⟩

/-- What the extension of branches comes to when it has inserted nodes at a statement. -/
def Pass.visitedInserted (s : Sweep Unit) (l : Nat × Statement) : List Visited :=
  match insertion? s l.1 l.2 with
  | some (s', node) => Visit.visited (extendBranch none) s' node.leaves
  | none => []

namespace Workspace

/-- What a sweep comes to. -/
def visited {μ : Type} (w : Workspace) (memory : μ) (visit : Visit μ) : List Visited :=
  visit.visited (w.opening memory) w.program.leaves

/-- What a pass comes to. Nothing happens once there is a fault. -/
def visitedBy (w : Workspace) (kind : Pass.Kind) (d : Discovery) : List Visited :=
  if w.context.hasErrors then []
  else
    match kind with
    | .defineMacros => w.visited false Pass.defineMacros
    | .expandMacros => w.visited () Pass.expandMacros
    | .initLabels => w.visited d.nextRound Pass.initLabels
    | .checkCircularity => w.visited true Pass.checkCircularity
    | .checkExpressions => w.visited () Pass.checkExpressions
    | .easyModes => w.visited () Pass.easyModes
    | .updateLabels => w.visited () Pass.updateLabels
    | .collapse => w.visited () Pass.collapse
    | .extendBranches =>
      w.visited () Pass.extendBranches ++
        (w.visits () Pass.extendBranches).flatMap fun x => Pass.visitedInserted x.1 x.2
    | .normalizeModes => w.visited () Pass.normalizeModes
    | .emit => w.visited ({} : Image) Pass.emit

end Workspace

/-- What was visited stands in a program where it was visited, and so does what takes its place. -/
def Visited.StandsIn (x : Visited) (p : Program) : Prop :=
  ∀ n, n = x.number ∨ n ∈ x.node.numbers → p.Stands n x.environment.surroundings

namespace Workspace

variable {w : Workspace}

/-- Nodes stand behind a faithful pass that keeps numbers where they stood, or where it came to the
statements that they replace. -/
theorem standsIn_sweep {μ : Type} {visit : Visit μ} (hv : visit.Faithful)
    (hnumbers : visit.Numbers) (w : Workspace) (memory : μ) :
    (∀ n σ, w.program.Stands n σ → (w.sweep memory visit id).1.program.Stands n σ) ∧
      ∀ x ∈ w.visited memory visit, x.StandsIn (w.sweep memory visit id).1.program := by
  refine ⟨fun n σ h => stands_sweep h hv hnumbers, fun x hx n hn => ?_⟩
  obtain ⟨v, hvisit, rfl⟩ := List.mem_map.mp hx
  refine stands_of_visits hv hvisit ?_
  rcases hn with rfl | hn
  · have hmem := (visit v.1 v.2.1 v.2.2).2.number_mem_numbers
    rwa [hnumbers.number] at hmem
  · exact hn

theorem standsIn_inPlace {μ : Type} {visit : Visit μ} {binds : Prop} {F : Item → Fault → Prop}
    (h : visit.InPlace binds F) (w : Workspace) (memory : μ) :
    (∀ n σ, w.program.Stands n σ → (w.sweep memory visit id).1.program.Stands n σ) ∧
      ∀ x ∈ w.visited memory visit, x.StandsIn (w.sweep memory visit id).1.program :=
  standsIn_sweep h.faithful h.fills.numbers w memory

/-- What the extension of branches inserts, it comes to in the surroundings of the branch, and under
numbers of what takes the place of the branch. -/
theorem visitedInserted_numbers {s : Sweep Unit} {l : Nat × Statement} {y : Visited}
    (hy : y ∈ Pass.visitedInserted s l) :
    y.environment.surroundings = s.context.env.surroundings ∧
      ∀ n, n = y.number ∨ n ∈ y.node.numbers →
        n ∈ (Pass.extendBranches s l.1 l.2).2.numbers := by
  cases hinsertion : Pass.insertion? s l.1 l.2 with
  | none => simp [Pass.visitedInserted, hinsertion] at hy
  | some insertion =>
    obtain ⟨s', node⟩ := insertion
    have heq := Pass.extendBranches_eq s l.1 l.2
    simp only [hinsertion] at heq
    simp only [Pass.visitedInserted, hinsertion] at hy
    obtain ⟨m, target, inverse, -, -, hinv, hs', rfl⟩ := Pass.insertion?_eq_some hinsertion
    have henv : s'.context.env = s.context.env := by
      rw [hs']
      exact Pass.env_valueOf _ _
    have hskip := (Pass.passes_skip (P := fun _ => True) hinv s' s.size l.2
      fun _ => trivial).surroundings
    rw [heq]
    simp only [Visit.visited, Node.leaves, Node.leavesAll, List.append_nil, List.cons_append,
      List.nil_append, reached_cons, reached_nil, List.map_cons, List.map_nil, List.mem_cons,
      List.not_mem_nil, or_false] at hy
    have hnumbers : Visit.Numbers (Pass.extendBranch none) := Pass.numbers_extendBranch (by simp)
    have hnumber := hnumbers.number
    simp only [Node.traverse, Node.traverseAll, Node.numbers, Node.numbersAll, List.append_nil,
      List.mem_append]
    -- The opposite branch is visited first, and leaves the surroundings to the jump as they are.
    rcases hy with rfl | rfl
    · refine ⟨congrArg Environment.surroundings henv, fun n hn => .inl (.inl ?_)⟩
      rcases hn with rfl | hn
      · have hmem := Node.number_mem_numbers (Pass.extendBranch none s' s.size
          (Pass.inPlace l.2 (Pass.skippingBranch inverse))).2
        rwa [hnumber] at hmem
      · exact hn
    · refine ⟨hskip.trans (congrArg Environment.surroundings henv), fun n hn => .inl (.inr ?_)⟩
      rcases hn with rfl | hn
      · have hmem := Node.number_mem_numbers (Pass.extendBranch none
          (Visit.step (Pass.extendBranch none) s' (s.size,
            Pass.inPlace l.2 (Pass.skippingBranch inverse))) (s.size + 1)
          (Pass.inPlace l.2 (Pass.jumpTo target))).2
        rwa [hnumber] at hmem
      · exact hn

theorem children_initLabels (w : Workspace) (d : Discovery) :
    (w.sweep d Pass.initLabels id).1.program.children = w.program.children := by
  rw [sweep_eq]
  exact children_sweep_eq_self fun _ _ => rfl

/-- **Nodes stand behind a pass where they stood before it**, or where it came to the statements
that they replace, if macros are expanded. -/
theorem standsIn_runPass {kind : Pass.Kind} (hkind : kind ∉ [.defineMacros, .expandMacros])
    (w : Workspace) (d d' : Discovery) :
    (∀ n σ, w.program.Stands n σ → (w.runPass kind d).1.program.Stands n σ) ∧
      ∀ x ∈ w.visitedBy kind d', x.StandsIn (w.runPass kind d).1.program := by
  by_cases hclean : w.context.hasErrors = true
  · simp only [runPass, visitedBy, hclean, if_true]
    exact ⟨fun _ _ h => h, by simp⟩
  · simp only [runPass, visitedBy, hclean, Bool.false_eq_true, if_false]
    cases kind with
    | defineMacros | expandMacros => simp at hkind
    | initLabels =>
      have hstands := standsIn_inPlace Pass.inPlace_initLabels w
      refine ⟨(hstands d.nextRound).1, fun x hx n hn => ?_⟩
      -- Whatever was in mind, the program is the same behind the pass.
      have hsame : (w.sweep d.nextRound Pass.initLabels id).1.program.root =
          (w.sweep d'.nextRound Pass.initLabels id).1.program.root := by
        rw [Program.root, Program.root, children_initLabels, children_initLabels]
      exact ((hstands d'.nextRound).2 x hx n hn).congr hsame
    | checkCircularity => exact standsIn_inPlace Pass.inPlace_checkCircularity w _
    | checkExpressions => exact standsIn_inPlace Pass.inPlace_checkExpressions w _
    | easyModes => exact standsIn_inPlace Pass.inPlace_easyModes w _
    | updateLabels => exact standsIn_inPlace Pass.inPlace_updateLabels w _
    | collapse => exact standsIn_inPlace Pass.inPlace_collapse w _
    | extendBranches =>
      have hstands := standsIn_sweep Pass.faithful_extendBranches
        Pass.numbers_extendBranches w ()
      refine ⟨hstands.1, fun x hx => ?_⟩
      rcases List.mem_append.mp hx with hx | hx
      · exact hstands.2 x hx
      · -- What is inserted stands in the node that takes the place of the branch.
        obtain ⟨v, hvisit, hx⟩ := List.mem_flatMap.mp hx
        obtain ⟨hsurroundings, hnumbers⟩ := visitedInserted_numbers hx
        intro n hn
        rw [hsurroundings]
        exact stands_of_visits Pass.faithful_extendBranches hvisit (hnumbers n hn)
    | normalizeModes => exact standsIn_inPlace Pass.inPlace_normalizeModes w _
    | emit => exact standsIn_inPlace Pass.inPlace_emit w _

end Workspace

/-! ## Assembling -/

namespace Assembly

/-- **All passes behind the expansion of macros come to a statement in the same surroundings.** In
any rounds, two passes come to the same number with the same scopes open, in the same segment, and
agree whether it takes bytes; and so does a pass that comes to a node that another one has put in
the place of a statement. -/
theorem surroundings_agree (options : Options) (program : Program) (diagnostics : Diagnostics)
    (hprogram : program.Numbered) {e e' : Stage.Entry}
    (he : e ∈ entries options program diagnostics 2)
    (he' : e' ∈ entries options program diagnostics 2) (d d' : Discovery) {x y : Visited}
    (hx : x ∈ e.before.visitedBy e.kind d) (hy : y ∈ e'.before.visitedBy e'.kind d')
    (hxy : y.number = x.number ∨ y.number ∈ x.node.numbers) :
    y.environment.scopes = x.environment.scopes ∧
      y.environment.segment = x.environment.segment ∧
      y.environment.writable = x.environment.writable := by
  let stages := (Stage.complete options.branchExtend).drop 2
  let w := behindStage options program diagnostics 2
  have hkinds : ∀ kind ∈ Stage.kindsAll stages, kind ∉ [.defineMacros, .expandMacros] := by
    simp only [stages]
    cases options.branchExtend <;> decide
  have hgrowth : Stage.Growth fun v w : Workspace =>
      ∀ n σ, v.program.Stands n σ → w.program.Stands n σ :=
    ⟨fun _ _ _ h => h, fun h h' n σ hn => h' n σ (h n σ hn), fun _ _ _ _ h => h⟩
  -- Whatever a pass comes to still stands there in the end.
  have hend : ∀ e ∈ entries options program diagnostics 2, ∀ d, ∀ x ∈ e.before.visitedBy e.kind d,
      x.StandsIn (Stage.runAll stages w []).1.program := by
    intro e he d x hx n hn
    have hgrown := (Stage.grown_runAll hgrowth stages
      (fun kind hkind w d => (Workspace.standsIn_runPass (hkinds kind hkind) w d d).1) w []).2 e he
    refine hgrown n _ ?_
    exact Stage.forall_historyAll
      (P := fun e => ∀ x ∈ e.before.visitedBy e.kind d, x.StandsIn e.after.program) stages
      (fun kind hkind w d' => (Workspace.standsIn_runPass (hkinds kind hkind) w d' d).2) w [] e he
      x hx n hn
  have hnumbered : (Stage.runAll stages w []).1.program.Numbered :=
    (Stage.kept_runAll (I := fun w : Workspace => w.program.Numbered) (fun _ _ hw => hw) stages
      (fun kind _ w d hw => Workspace.numbered_runPass hw kind d) w []
      (numbered_behindStage hprogram 2)).1
  -- In the end the number belongs to one node, so there is one place where it stands.
  have hsame : y.environment.surroundings = x.environment.surroundings :=
    (hend e' he' d' y hy y.number (.inl rfl)).unique hnumbered (hend e he d x hx y.number hxy)
  refine ⟨?_, congrArg (·.segment) hsame, congrArg (·.writable) hsame⟩
  exact congrArg (fun σ => σ.scopes.inner ++ [0]) hsame

/-- A branch in a scope that does not reach its target. -/
def farScope : Program :=
  .ofFragments ([.scopeBegin, .instruction (.resolved .beq .relative (.constant 1000)),
    .scopeEnd].map (.ofItem .topLevel))

/-- The last pass comes to what the extension has put in the place of the branch in the scope in
which the branch was. -/
theorem surroundings_agree_farScope :
    ∃ e ∈ entries {} farScope {} 2, ∃ e' ∈ entries {} farScope {} 2,
      ∃ x ∈ e.before.visitedBy e.kind {}, ∃ y ∈ e'.before.visitedBy e'.kind {},
        (e.kind = .extendBranches ∧ e'.kind = .emit ∧ y.number ≠ x.number ∧
          y.environment.scopes = [1, 0]) ∧
        y.environment.scopes = x.environment.scopes ∧
          y.environment.segment = x.environment.segment ∧
          y.environment.writable = x.environment.writable := by
  have hprogram : farScope.Numbered := ⟨by decide +kernel, by decide +kernel⟩
  have hvisits : ∃ e ∈ entries {} farScope {} 2, ∃ e' ∈ entries {} farScope {} 2,
      ∃ x ∈ e.before.visitedBy e.kind {}, ∃ y ∈ e'.before.visitedBy e'.kind {},
        y.number ∈ x.node.numbers ∧ e.kind = .extendBranches ∧ e'.kind = .emit ∧
          y.number ≠ x.number ∧ y.environment.scopes = [1, 0] := by
    decide +kernel
  obtain ⟨e, he, e', he', x, hx, y, hy, hmem, hrest⟩ := hvisits
  exact ⟨e, he, e', he', x, hx, y, hy, hrest,
    surroundings_agree {} farScope {} hprogram he he' {} {} hx hy (.inr hmem)⟩

end Assembly
end Assembler6502
