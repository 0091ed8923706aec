import Assembler6502.Proofs.Extension
import Assembler6502.Proofs.Numbering
import Mathlib.Data.List.Perm.Subperm

/-!
# Passes over arenas

A pass over an arena that holds a tree does what the pass over the tree does. It comes to the same
statements in the same order, since a statement is overwritten only when the walk is there, and what
is put in its place has its number or a new one. So the walk has a result, the arena behind the pass
holds the tree behind the pass, and everything else is the same. Reading leaves an arena that holds
what was read, so assembling sources is assembling the tree that they are read as.

## Main definitions

* `Tour.Comes`: a walk has a result, and the arena holds some nodes then
* `Action.Does`: an action does in an arena what a visit does in a tree
* `Arena.Stores`: an arena holds a program, and has no more nodes than numbers were given out

## Main results

* `Action.Does.walk`: a walk over an arena does what a pass over the tree does
* `Pass.does_rewriteBranches`: overwriting a branch and walking it again extends the branch
* `Workspace.Stores.runPass`: the passes over an arena do what the passes over its tree do
* `Source.stores_read`: reading leaves an arena that holds what was read
* `Assembly.ofSources_eq`, `Assembly.compile_eq`: sources are assembled as the tree that they are
  read as
-/

namespace Assembler6502

open Arena (Frames)

/-! ## Walks -/

section Walks

variable {μ : Type} {t : Tour μ} {ids : List Nat} {s : Sweep μ} {ns : List Node}

/-- A walk has a result: the state, and an arena of its size that holds some nodes and in which only
nodes with some numbers were overwritten. -/
def Tour.Comes (t : Tour μ) (ids : List Nat) (s : Sweep μ) (ns : List Node)
    (result : Option (Tour μ)) : Prop :=
  ∃ b : Arena, result = some (.ofSweep s b) ∧ b.size = s.size ∧ Frames t.arena b ids ∧ b.HoldsAll ns

theorem Tour.sweep_ofSweep {b : Arena} (h : b.size = s.size) : (Tour.ofSweep s b).sweep = s := by
  simp only [sweep, ofSweep, h]

/-- An action does in an arena what a visit does in a tree, at the statements with a property. -/
def Action.Does (P : Statement → Prop) (action : Action μ) (visit : Visit μ) : Prop :=
  ∀ (t : Tour μ) (id : Nat) (st : Statement), P st → t.arena.get? id = some (.statement st) →
    t.Comes [id] (visit t.sweep id st).1 [(visit t.sweep id st).2] (action t id st)

variable {P : Statement → Prop} {action : Action μ} {visit : Visit μ}

mutual

/-- **A walk over an arena** does what a pass over the tree does that the arena holds. -/
theorem Action.Does.walk (haction : action.Does P visit) (hv : visit.Numbers) :
    ∀ (n : Node) (fuel : Nat) (t : Tour μ), n.numbers.length ≤ fuel → n.numbers.Nodup →
      t.arena.Holds n → (∀ l ∈ n.leaves, P l.2) →
        t.Comes n.numbers (n.traverse visit t.sweep).1 [(n.traverse visit t.sweep).2]
          (t.walk action fuel n.number)
  | .leaf id st, fuel, t, hfuel, _, hn, hP => by
    obtain ⟨fuel, rfl⟩ := Nat.exists_eq_succ_of_ne_zero (Nat.one_le_iff_ne_zero.mp hfuel)
    rw [Arena.Holds] at hn
    simp only [Tour.walk, Node.number, hn, Node.traverse]
    exact haction t id st (hP (id, st) (by simp [Node.leaves])) hn
  | .sequence id location children, fuel, t, hfuel, hnodup, hn, hP => by
    rw [Node.numbers] at hfuel hnodup
    rw [List.length_append, List.length_singleton] at hfuel
    obtain ⟨fuel, rfl⟩ := Nat.exists_eq_succ_of_ne_zero (Nat.ne_zero_of_lt hfuel)
    obtain ⟨hchildren, -, hid⟩ := List.nodup_append.mp hnodup
    rw [Arena.Holds] at hn
    obtain ⟨b, hb, hsize, hframes, hholds⟩ := Action.Does.walkAll haction hv children fuel t
      (Nat.le_of_succ_le_succ hfuel) hchildren hn.2 (by simpa [Node.leaves] using hP)
    simp only [Tour.walk, Node.number, hn.1, Node.traverse]
    refine ⟨b, hb, hsize, hframes.mono fun m hm _ => ?_, ?_⟩
    · rw [Node.numbers]
      exact List.mem_append_left _ hm
    · -- The sequence itself was not overwritten, and its children have the numbers that they had.
      have hself := hframes.kept id (Arena.lt_of_get? hn.1) fun hmem => hid id hmem id (by simp) rfl
      simp only [Arena.HoldsAll, Arena.Holds, hv.number_traverseAll, and_true]
      exact ⟨hself.trans hn.1, hholds⟩

theorem Action.Does.walkAll (haction : action.Does P visit) (hv : visit.Numbers) :
    ∀ (ns : List Node) (fuel : Nat) (t : Tour μ), (Node.numbersAll ns).length ≤ fuel →
      (Node.numbersAll ns).Nodup → t.arena.HoldsAll ns → (∀ l ∈ Node.leavesAll ns, P l.2) →
        t.Comes (Node.numbersAll ns) (Node.traverseAll visit t.sweep ns).1
          (Node.traverseAll visit t.sweep ns).2
          ((ns.map Node.number).foldlM (Tour.walk action fuel) t)
  | [], fuel, t, _, _, _, _ => by
    simp only [Node.traverseAll, List.map_nil, List.foldlM_nil]
    exact ⟨t.arena, rfl, rfl, .refl _, trivial⟩
  | n :: rest, fuel, t, hfuel, hnodup, hn, hP => by
    rw [Node.numbersAll] at hfuel hnodup
    rw [List.length_append] at hfuel
    obtain ⟨hfirst, hrest, hdisjoint⟩ := List.nodup_append.mp hnodup
    rw [Arena.HoldsAll] at hn
    rw [Node.leavesAll, List.forall_mem_append] at hP
    obtain ⟨b, hb, hsize, hframes, hholds⟩ := Action.Does.walk haction hv n fuel t
      (Nat.le_trans (Nat.le_add_right _ _) hfuel) hfirst hn.1 hP.1
    -- What is walked later is where it was.
    have hlater : b.HoldsAll rest := hframes.holdsAll rest hn.2 fun m hm hm' =>
      hdisjoint m hm' m hm rfl
    have hstate := Tour.sweep_ofSweep hsize
    obtain ⟨c, hc, hsize', hframes', hholds'⟩ := Action.Does.walkAll haction hv rest fuel
      (.ofSweep (n.traverse visit t.sweep).1 b) (Nat.le_trans (Nat.le_add_left _ _) hfuel) hrest
      hlater hP.2
    rw [hstate] at hc hsize' hholds'
    simp only [Node.traverseAll, List.map_cons, List.foldlM_cons, hb]
    refine ⟨c, hc, hsize', ?_, ?_⟩
    · rw [Node.numbersAll]
      exact hframes.trans hframes'
    · -- What was walked before has old numbers, which the rest does not have, or new ones.
      rw [Arena.HoldsAll] at hholds ⊢
      refine ⟨hframes'.holds _ hholds.1 fun m hm hm' => ?_, hholds'⟩
      have hlt := hn.1.lt
      rcases (hv.traverse n t.sweep hfirst hlt).mem m hm with hold | hnew
      · exact hdisjoint m hold m hm' rfl
      · exact absurd (hn.2.lt m hm') (Nat.not_lt.mpr hnew.1)

end

/-- A visit that puts a statement or new parts in the place of a statement can be done in an
arena. -/
theorem Visit.Fills.does (h : visit.Fills) :
    (Action.ofVisit visit).Does (fun _ => True) visit := by
  intro t id st _ hid
  have hlt := Arena.lt_of_get? hid
  rcases h t.sweep id st with ⟨st', hnode, hsize⟩ | ⟨location, parts, hnode, hsize⟩
  · refine ⟨_, rfl, ?_, ?_, ?_⟩
    · simp only [hnode, Arena.put, Arena.size_set, hsize]
      rfl
    · simp only [hnode, Arena.put]
      exact .set id (by simp [Cell.children])
    · simp only [hnode, Arena.put, Arena.HoldsAll, Arena.Holds, Arena.get?_set, hlt, if_true,
        and_true]
  · obtain ⟨hgains, hentered⟩ := t.arena.gains_ofFragments parts
    -- New parts have new numbers, so they are still there when the statement is overwritten.
    have hparts : ∀ m ∈ Node.numbersAll (Node.ofFragments t.arena.size parts).1, m ∉ [id] := by
      intro m hm hm'
      have hnew := ((Node.ascending_ofFragments t.arena.size parts).bounds m hm).1
      rw [List.mem_singleton.mp hm'] at hnew
      exact absurd hlt (Nat.not_lt.mpr hnew)
    have hset : Arena.Frames (t.arena.enterAll (Node.ofFragments t.arena.size parts).1)
        (t.arena.put id (visit t.sweep id st).2) [id] := by
      rw [hnode]
      exact .set id fun m hm => hgains.holds.lt m (Node.number_mem_numbersAll m hm)
    refine ⟨_, rfl, ?_, hgains.frames.trans hset, ?_⟩
    · simp only [hnode, Arena.put, Arena.size_set, hsize]
      exact hentered
    · have hheld := hset.holdsAll _ hgains.holds hparts
      simp only [hnode, Arena.put, Arena.HoldsAll, Arena.Holds, Arena.get?_set, and_true] at hheld ⊢
      exact ⟨if_pos (Nat.lt_of_lt_of_le hlt hgains.frames.le), hheld⟩

end Walks

/-! ## The extension of branches -/

namespace Pass

variable {t : Tour Unit} {id : Nat} {st : Statement} {m : Mnemonic} {target : Expr}

/-- The statement is no branch that is always taken. -/
def NotAlways (st : Statement) : Prop :=
  ∀ target, st.item.branch? ≠ some (.bra, target)

theorem comes_stays (hid : t.arena.get? id = some (.statement st)) {s : Sweep Unit}
    (hsize : s.size = t.arena.size) :
    t.Comes [id] s [.leaf id st] (some (.ofSweep s t.arena)) := by
  refine ⟨t.arena, rfl, hsize.symm, (Frames.refl _).mono (by simp), ?_⟩
  simpa only [Arena.HoldsAll, Arena.Holds, and_true] using hid

/-- Inside of a walk over what took the place of a branch, a branch that does not reach is a fault
on both sides. -/
theorem does_rewriteBranch_none : (rewriteBranch none).Does NotAlways (extendBranch none) := by
  intro t id st hst hid
  cases hb : st.item.branch? with
  | none =>
    rw [extendBranch_other hb]
    simp only [rewriteBranch, hb]
    exact comes_stays hid rfl
  | some branch =>
    obtain ⟨m, target⟩ := branch
    have hm : m ≠ .bra := fun h => hst target (by rw [hb, h])
    rw [extendBranch_branch hb]
    simp only [rewriteBranch, hb, hm, if_false, env_valueOf]
    split
    · exact comes_stays hid rfl
    · cases m.inverse? with
      | none => exact comes_stays hid rfl
      | some inverse =>
        have hgains := (Arena.Gains.statement t.arena (inPlace st (skippingBranch inverse))).append
          (.statement _ (inPlace st (jumpTo target)))
        refine ⟨_, rfl, by rw [Arena.size_push, Arena.size_push]; rfl,
          hgains.frames.mono (by simp), ?_⟩
        refine hgains.frames.holdsAll [.leaf id st] ?_ (by simp)
        simpa only [Arena.HoldsAll, Arena.Holds, and_true] using hid

/-- What has been put in the place of a branch is walked where the branch was. -/
theorem comes_again {s : Sweep Unit} {b : Arena} {n : Node} (hframes : Frames t.arena b [id])
    (hn : b.Holds n) (hnumber : n.number = id) (hsize : b.size = s.size)
    (hlength : n.numbers.length ≤ 3)
    (hnodup : n.numbers.Nodup) (hnew : ∀ m ∈ n.numbers, m < t.arena.size → m = id)
    (hleaves : ∀ l ∈ n.leaves, NotAlways l.2) :
    t.Comes [id] (n.traverse (extendBranch none) s).1 [(n.traverse (extendBranch none) s).2]
      (Tour.walk (rewriteBranch none) 3 (.ofSweep s b) id) := by
  have hnumbers : Visit.Numbers (extendBranch none) := numbers_extendBranch (by simp)
  obtain ⟨c, hc, hsize', hframes', hholds⟩ := does_rewriteBranch_none.walk hnumbers n 3
    (.ofSweep s b) hlength hnodup hn hleaves
  rw [hnumber] at hc
  rw [Tour.sweep_ofSweep hsize] at hc hsize' hholds
  refine ⟨c, hc, hsize', (hframes.trans hframes').mono fun m hm hlt => ?_, hholds⟩
  rcases List.mem_append.mp hm with hm | hm
  · exact hm
  · exact List.mem_singleton.mpr (hnew m hm hlt)

theorem notAlways_jumpTo : NotAlways (inPlace st (jumpTo target)) :=
  fun _ h => by cases h

/-- The jump takes the place of the branch, and is passed over there. -/
theorem comes_jump (hid : id < t.arena.size) {s : Sweep Unit} (hs : s.size = t.arena.size) :
    t.Comes [id] (s.mapContext (·.follow (inPlace st (jumpTo target))))
      [.leaf id (inPlace st (jumpTo target))]
      (Tour.walk (rewriteBranch none) 3
        (.ofSweep s (t.arena.set id (.statement (inPlace st (jumpTo target))))) id) := by
  have hframes : Frames t.arena (t.arena.set id (.statement (inPlace st (jumpTo target)))) [id] :=
    .set id (by simp [Cell.children])
  have hheld : (t.arena.set id (.statement (inPlace st (jumpTo target)))).Holds
      (.leaf id (inPlace st (jumpTo target))) := by
    rw [Arena.Holds, Arena.get?_set, if_pos hid]
  have hagain := comes_again hframes hheld rfl (Arena.size_set.trans hs.symm)
    (by simp [Node.numbers]) (by simp [Node.numbers]) (by simp [Node.numbers])
    (by simpa [Node.leaves] using notAlways_jumpTo)
  simpa only [Node.traverse, extendBranch_other branch?_jumpTo] using hagain

/-- A sequence of two new nodes takes the place of the branch, and both are visited there. -/
theorem comes_skip {inverse : Mnemonic} (hinv : m.inverse? = some inverse)
    (hid : id < t.arena.size) {s : Sweep Unit} (hs : s.size = t.arena.size) :
    let skip := inPlace st (skippingBranch inverse)
    let jump := inPlace st (jumpTo target)
    let added := (t.arena.push (.statement skip)).push (.statement jump)
    let result := replaceBySkip (some (extendBranch none)) s id st m inverse target
    t.Comes [id] result.1 [result.2] (Tour.walk (rewriteBranch none) 3
      (.ofSweep (s.warn st.location (.branchExtended m inverse)).setChanged
        (added.set id (.sequence st.location [t.arena.size, t.arena.size + 1]))) id) := by
  intro skip jump added result
  have hskip : NotAlways skip := fun _ h =>
    Mnemonic.ne_bra_of_inverse? (Mnemonic.inverse?_inverse? hinv)
      (congrArg Prod.fst (Option.some.inj h))
  have hgains : t.arena.Gains added [.leaf t.arena.size skip, .leaf (t.arena.size + 1) jump] := by
    have hboth := (Arena.Gains.statement t.arena skip).append (.statement _ jump)
    rwa [Arena.size_push] at hboth
  have hset : Frames added (added.set id (.sequence st.location
      [t.arena.size, t.arena.size + 1])) [id] :=
    .set id fun m hm => by
      simp only [Cell.children, List.mem_cons, List.not_mem_nil, or_false] at hm
      simp only [added, Arena.size_push]
      omega
  have hframes : Frames t.arena (added.set id (.sequence st.location
      [t.arena.size, t.arena.size + 1])) [id] := (hgains.frames.trans hset).mono (by simp)
  -- Both nodes lie behind all others, so they are still there when the branch is overwritten.
  have hheld : (added.set id (.sequence st.location [t.arena.size, t.arena.size + 1])).Holds
      (.sequence id st.location [.leaf t.arena.size skip, .leaf (t.arena.size + 1) jump]) := by
    rw [Arena.Holds, Arena.get?_set, if_pos (Nat.lt_of_lt_of_le hid hgains.frames.le)]
    refine ⟨rfl, hset.holdsAll _ hgains.holds fun m hm hm' => ?_⟩
    simp only [Node.numbersAll, Node.numbers, List.append_nil, List.mem_append,
      List.mem_singleton] at hm hm'
    omega
  have hsize : (added.set id (.sequence st.location [t.arena.size, t.arena.size + 1])).size =
      t.arena.size + 2 := by
    simp [added]
  have hnodup : [t.arena.size, t.arena.size + 1, id].Nodup := by
    simp only [List.nodup_cons, List.mem_cons, List.not_mem_nil, List.nodup_nil, or_false,
      not_false_eq_true, and_true]
    omega
  have hnew : ∀ m ∈ [t.arena.size, t.arena.size + 1, id], m < t.arena.size → m = id := by
    simp only [List.mem_cons, List.not_mem_nil, or_false]
    omega
  have hagain := comes_again (s := { (s.warn st.location
    (.branchExtended m inverse)).setChanged with size := t.arena.size + 2 })
    hframes hheld rfl hsize (Nat.le_refl 3) hnodup hnew
    (by simpa [Node.leaves, Node.leavesAll] using ⟨hskip, notAlways_jumpTo⟩)
  simp only [Node.traverse, Node.traverseAll] at hagain
  simp only [result, replaceBySkip, Sweep.size_setChanged, Sweep.size_warn, hs]
  exact hagain

/-- **A branch that is overwritten and walked again** is extended. -/
theorem does_rewriteBranches : rewriteBranches.Does (fun _ => True) extendBranches := by
  intro t id st _ hid
  have hlt := Arena.lt_of_get? hid
  cases hb : st.item.branch? with
  | none =>
    rw [extendBranches, extendBranch_other hb]
    simp only [rewriteBranches, rewriteBranch, hb]
    exact comes_stays hid rfl
  | some branch =>
    obtain ⟨m, target⟩ := branch
    by_cases hreach : t.sweep.Reaches st.location target
    · rw [extendBranches, extendBranch_reaching hb hreach]
      rw [Sweep.Reaches] at hreach
      simp only [rewriteBranches, rewriteBranch, hb, env_valueOf, hreach, if_true]
      exact comes_stays hid rfl
    · have hfar := hreach
      rw [Sweep.Reaches] at hfar
      simp only [rewriteBranches, rewriteBranch, hb, env_valueOf, hfar, Bool.false_eq_true,
        if_false, overwrite]
      -- What is walked again is a jump, or the opposite branch and a jump.
      split
      · rename_i hm
        subst hm
        rw [extendBranches, extendBranch_always hb hreach]
        exact comes_jump hlt rfl
      · rename_i hm
        cases hinv : m.inverse? with
        | none =>
          rw [extendBranches, extendBranch_stuck hb hm hinv hreach]
          exact comes_stays hid rfl
        | some inverse =>
          rw [extendBranches, extendBranch_conditional hb hinv hreach]
          exact comes_skip hinv hlt rfl

end Pass

/-! ## Passes -/

/-- An arena holds a program, whose numbers tell nodes apart and are those of the arena, and no
sequence names a child that is not there. -/
structure Arena.Stores (a : Arena) (p : Program) : Prop where
  holds : a.Holds p.root
  numbered : p.Numbered
  size : a.size = p.size
  closed : a.Closed

theorem Program.Numbered.length_le {p : Program} (h : p.Numbered) :
    p.root.numbers.length ≤ p.size := by
  have hle := (h.nodup.subperm fun n hn => List.mem_range.mpr (h.lt n hn)).length_le
  rwa [List.length_range] at hle

theorem Arena.Stores.length_le {a : Arena} {p : Program} (h : a.Stores p) :
    p.root.numbers.length ≤ a.size :=
  h.size ▸ h.numbered.length_le

namespace Workspace

/-- The arena holds the program, and the context is the same. -/
structure Stores (w : Workspace Arena) (v : Workspace) : Prop where
  program : w.program.Stores v.program
  context : w.context = v.context

variable {w : Workspace Arena} {v : Workspace}

/-- **A pass over an arena** does what it does to the program that the arena holds. -/
theorem Stores.sweep {μ : Type} {action : Action μ} {visit : Visit μ} (h : w.Stores v)
    (haction : action.Does (fun _ => True) visit) (hv : visit.Numbers) (memory : μ)
    (close : Context → Context) :
    (Arena.sweep w memory action close).1.Stores (v.sweep memory visit close).1 ∧
      (Arena.sweep w memory action close).2 = (v.sweep memory visit close).2 := by
  let start : Tour μ := { context := w.context.restart, memory, arena := w.program }
  have hstart : start.sweep = v.opening memory := by
    simp only [start, Tour.sweep, opening, h.context, h.program.size]
  obtain ⟨b, hb, hsize, hframes, hholds⟩ := haction.walk hv v.program.root w.program.size start
    h.program.length_le h.program.numbered.nodup h.program.holds fun _ _ => trivial
  rw [hstart] at hb hsize hholds
  have hnumbered := hv.sweep h.program.numbered memory close
  simp only [Program.root, Node.traverse, Arena.HoldsAll, and_true] at hb hsize hholds
  simp only [Arena.sweep, Workspace.sweep, Sweepable.sweep, Program.sweep] at hnumbered ⊢
  have hwalk : start.walk action w.program.size 0 = _ := hb
  simp only [start] at hwalk
  rw [hwalk]
  exact ⟨⟨⟨hholds, hnumbered, hsize, hframes.closed h.program.closed⟩, rfl⟩, rfl⟩

theorem Stores.runPass (h : w.Stores v) (kind : Pass.Kind) (d : Discovery) :
    (w.runPass kind d).1.Stores (v.runPass kind d).1 ∧
      (w.runPass kind d).2 = (v.runPass kind d).2 := by
  by_cases hclean : v.Clean
  · have hclean' : w.Clean := by rwa [Clean, h.context]
    by_cases hkind : kind = .extendBranches
    · obtain ⟨hstores, hrest⟩ :=
        h.sweep Pass.does_rewriteBranches Pass.numbers_extendBranches () id
      have he : ¬ w.context.hasErrors = true := Bool.eq_false_iff.mp hclean'
      have hrun : w.runPass .extendBranches d =
          ((Arena.sweep w () Pass.rewriteBranches id).1,
            (Arena.sweep w () Pass.rewriteBranches id).2.1, d) := if_neg he
      rw [hkind, runPass_of_visit Pass.visit?_extendBranches hclean, hrun]
      exact ⟨hstores, by rw [hrest]⟩
    · obtain ⟨μ, memory, visit, close, f, hfills, hrun⟩ := Pass.Kind.exists_fills hkind d
      obtain ⟨hstores, hrest⟩ := h.sweep hfills.does hfills.numbers memory close
      rw [hrun Arena w hclean', hrun Program v hclean]
      exact ⟨hstores, by rw [← hrest]; rfl⟩
  · have hfault : v.context.hasErrors = true := by simpa [Clean] using hclean
    have hfault' : w.context.hasErrors = true := by rw [h.context, hfault]
    simp only [Workspace.runPass, hfault, hfault', if_true]
    exact ⟨h, trivial⟩

theorem Stores.emit (h : w.Stores v) :
    w.emit.1.Stores v.emit.1 ∧ w.emit.2 = v.emit.2 := by
  simp only [Workspace.emit, h.context]
  split
  · exact ⟨h, rfl⟩
  · exact h.sweep Pass.inPlace_emit.fills.does Pass.inPlace_emit.fills.numbers _ id

end Workspace

namespace Assembly

theorem stores_runStages {w : Workspace Arena} {v : Workspace} (h : w.Stores v)
    (stages : List Stage) : (runStages stages w).Stores (runStages stages v) :=
  Stage.lockstep_runStages (S := True)
    ⟨fun h => by rw [h.context], fun _ h => ⟨h.program, by rw [h.context]⟩⟩
    (fun kind _ w v d d' h hd => by
      obtain ⟨hstores, hrest⟩ := h.runPass kind d
      rw [← hd trivial]
      exact ⟨hstores, congrArg Prod.fst hrest, fun _ => congrArg Prod.snd hrest⟩) h

/-- **A program in an arena** is assembled as the tree that it is. -/
theorem ofProgram_eq {a : Arena} {p : Program} (h : a.Stores p) (options : Options)
    (diagnostics : Diagnostics) :
    ofProgram options a diagnostics = ofProgram options p diagnostics := by
  have hstart : (start options a diagnostics).Stores (start options p diagnostics) := ⟨h, rfl⟩
  obtain ⟨hstores, hrest⟩ :=
    (stores_runStages hstart (Stage.pipeline options.branchExtend)).emit
  simp only [ofProgram, hstores.context, hrest]

end Assembly

/-! ## Sources -/

/-- **Reading leaves an arena that holds what was read.** -/
theorem Source.stores_read (cpu : Cpu) (fs : FileSystem) (stdin : Except FileError (List UInt8))
    (inputs : List Input) :
    (read cpu fs stdin inputs).arena.Stores (read cpu fs stdin inputs).program := by
  obtain ⟨-, hnumbers, hgains⟩ := adds_read cpu fs stdin inputs
  have hset : Frames (readAll fs { cpu, input := stdin } inputs).1.arena
      (read cpu fs stdin inputs).arena [0] :=
    .set 0 fun m hm => hgains.holds.lt m (Node.number_mem_numbersAll m hm)
  refine ⟨?_, numbered_read cpu fs stdin inputs, Arena.size_set, ?_⟩
  · rw [Program.root, Arena.Holds]
    refine ⟨?_, hset.holdsAll _ hgains.holds fun m hm hm' => ?_⟩
    · exact Arena.get?_set.trans (if_pos (Nat.lt_of_lt_of_le Nat.zero_lt_one hgains.frames.le))
    · -- Only the root has the number zero.
      have hlow := (hnumbers.bounds m hm).1
      rw [List.mem_singleton.mp hm'] at hlow
      cases hlow
  · refine hset.closed (hgains.frames.closed fun n cell hcell m hm => ?_)
    have hn := Arena.lt_of_get? hcell
    obtain rfl : n = 0 := Nat.lt_one_iff.mp hn
    cases hcell
    cases hm

/-- A program in an arena is placed at an address as the tree that it is. -/
theorem Arena.Stores.placeAt {a : Arena} {p : Program} (h : a.Stores p) (start : Nat) :
    (Assembly.placeArenaAt start a).Stores (Assembly.placeAt start p) := by
  have hroot := h.holds
  rw [Program.root, Holds] at hroot
  have hplaced : Assembly.placeArenaAt start a =
      (a.push (.statement (Assembly.origin start))).set 0
        (.sequence .topLevel (a.size :: p.children.map Node.number)) := by
    simp only [Assembly.placeArenaAt, hroot.1]
  have hgains := Gains.statement a (Assembly.origin start)
  have hset : Frames (a.push (.statement (Assembly.origin start)))
      (Assembly.placeArenaAt start a) [0] := by
    refine hplaced ▸ .set 0 fun m hm => ?_
    rw [size_push]
    rcases List.mem_cons.mp hm with rfl | hm
    · exact Nat.lt_succ_self _
    · exact Nat.lt_succ_of_lt (h.closed 0 _ hroot.1 m hm)
  have hnumbered := h.numbered.placeAt start
  refine ⟨?_, hnumbered, ?_, hset.closed (hgains.frames.closed h.closed)⟩
  · simp only [Assembly.placeAt, ← h.size, Program.root, Holds, List.map_cons, Node.number]
      at hnumbered ⊢
    refine ⟨?_, hset.holdsAll _ ⟨hgains.holds.1, hgains.frames.holdsAll _ hroot.2 (by simp)⟩ ?_⟩
    · rw [hplaced, get?_set, size_push, if_pos (Nat.succ_pos _)]
    · -- Only the root has the number zero.
      intro m hm hm'
      have happart := (List.nodup_append.mp hnumbered.nodup).2.2
      exact happart m hm 0 List.mem_cons_self (List.mem_singleton.mp hm')
  · rw [hplaced, size_set, size_push, h.size, Assembly.placeAt]

namespace Assembly

/-- **Sources are assembled as the tree that they are read as.** -/
theorem ofSources_eq (options : Options) (fs : FileSystem) (stdin : Except FileError (List UInt8))
    (inputs : List Source.Input) :
    ofSources options fs stdin inputs =
      ofProgram options (Source.read options.cpu fs stdin inputs).program
        (Source.read options.cpu fs stdin inputs).diagnostics :=
  ofProgram_eq (Source.stores_read _ _ _ _) _ _

theorem compile_eq (fs : FileSystem) (text : List Char) (address : Nat) :
    compile fs text address =
      let read := Source.read .mos6502 fs (.ok []) [.text inputName text ""]
      let assembly := ofProgram {} (placeAt address read.program) read.diagnostics
      if assembly.diagnostics.hasErrors then .error assembly.diagnostics
      else .ok assembly.image.bytes := by
  have hassembly := ofProgram_eq ((Source.stores_read .mos6502 fs (.ok [])
    [.text inputName text ""]).placeAt address) {} (Source.read .mos6502 fs (.ok [])
      [.text inputName text ""]).diagnostics
  simp only [compile, hassembly]

end Assembly
end Assembler6502
