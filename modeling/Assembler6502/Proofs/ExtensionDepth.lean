import Assembler6502.Proofs.Codec
import Assembler6502.Proofs.Extension
import Assembler6502.Proofs.History

/-!
# How deep the extension goes

What takes the place of a branch is visited in the same run. If the opposite branch does not reach
over the jump, it is replaced in turn, at the same address and by the same rule, and so on: then the
run has no end. Whether that happens is a matter of the program counter. The target of the opposite
branch is a sum that wraps around, while its displacement is counted by sums that stop at the ends
of the range; both agree as long as the sum stays in the range, and only then.

The extension that gives up at a given depth of visits inside visits tells when there is an end:
there is one if some depth suffices, and then the first one does.

## Main definitions

* `Pass.extendWithin`: the extension with visits inside visits up to a depth
* `Sweep.Replaces`: a run is at a conditional branch that does not reach its target
* `Value.HasRoom`: there is room for the opposite branch and the jump before the end of the range
* `Workspace.ExtendsWithin`: a depth suffices for a run

## Main results

* `Pass.endless_extendWithin`: when a depth does not suffice at a statement
* `Workspace.extension_ends_iff`: a run ends exactly if there is room wherever it replaces a
  conditional branch
-/

namespace Assembler6502

/-! ## The opposite branch -/

/-- There is room for the opposite branch and the jump before the end of the range. -/
def Value.HasRoom (pc : Value) : Prop :=
  pc.toInt + 5 < 2 ^ 63

instance (pc : Value) : Decidable pc.HasRoom :=
  inferInstanceAs (Decidable (_ < _))

/-- The target of the opposite branch, as the sum wraps around. -/
theorem Value.toInt_add_five (pc : Value) :
    (pc + 5).toInt = if pc.HasRoom then pc.toInt + 5 else pc.toInt + 5 - 2 ^ 64 := by
  have hlow := pc.le_toInt
  have hhigh := pc.toInt_lt
  have hfive : (5 : Value).toInt = 5 := by decide
  rw [Int64.toInt_add, hfive, Int.bmod_def]
  by_cases hroom : pc.HasRoom
  · rw [if_pos hroom]
    unfold HasRoom at hroom
    split <;> omega
  · rw [if_neg hroom]
    unfold HasRoom at hroom
    split <;> omega

/-- **The displacement of the opposite branch** is that over the jump, if there is room, and else
the least there is. -/
theorem displacement_skip (pc : Value) :
    displacement (pc + 5) pc = if pc.HasRoom then 3 else Int64.minValue := by
  have hlow := pc.le_toInt
  have hhigh := pc.toInt_lt
  have htwo : (2 : Value).toInt = 2 := by decide
  have hthree : (3 : Value).toInt = 3 := by decide
  have hmin : Int64.minValue.toInt = -2 ^ 63 := by decide
  rw [← Int64.toInt_inj, displacement, Value.saturatingSub, Value.saturatingAdd,
    Value.toInt_clamp, Value.toInt_clamp, htwo, Value.toInt_add_five]
  by_cases hroom : pc.HasRoom
  · rw [if_pos hroom, if_pos hroom, hthree]
    unfold Value.HasRoom at hroom
    omega
  · rw [if_neg hroom, if_neg hroom, hmin]
    unfold Value.HasRoom at hroom
    omega

/-! ## Runs without an end -/

namespace Context

variable {c : Context} {location : Location} {fault : Fault} {st : Statement} {e : Expr}

/-- Somewhere the extension was given up. -/
def Endless (c : Context) : Prop :=
  ∃ fault ∈ c.diagnostics.errors, ∃ branch, fault.value = .pass (.endlessExtension branch)

theorem endless_error :
    (c.error location fault).Endless ↔
      c.Endless ∨ ∃ branch, fault = .pass (.endlessExtension branch) := by
  simp [Endless, error, Diagnostics.error, or_and_right, exists_or]

@[simp] theorem endless_valueOf : (c.valueOf location e).2.Endless ↔ c.Endless := by
  unfold valueOf
  split
  · rfl
  · simp [endless_error]

@[simp] theorem endless_follow : (c.follow st).Endless ↔ c.Endless := by
  obtain ⟨location, item⟩ := st
  cases item with
  | byteRange offset length bytes =>
    simp only [follow, trackPc?]
    split
    · rename_i h
      split at h <;> cases h <;> rfl
    · rename_i h
      split at h <;> cases h
  | setPc target | advance target fill => exact endless_valueOf
  | scopeEnd =>
    simp only [follow, trackPc?, followStructure, followStructure?]
    split
    · rfl
    · simp [endless_error]
  | _ => rfl

@[simp] theorem endless_restart : c.restart.Endless ↔ c.Endless := by
  unfold restart
  dsimp only
  split
  · rfl
  · simp only [endless_error, reduceCtorEq, exists_false, or_false]
    rfl

theorem not_endless_of_clean (h : c.hasErrors = false) : ¬ c.Endless := by
  simp [Endless, hasErrors_eq_false.mp h]

end Context

/-- A run of the extension is at a conditional branch that it does not count as near enough. -/
def Sweep.Replaces (s : Sweep Unit) (st : Statement) : Prop :=
  ∃ m inverse target, st.item.branch? = some (m, target) ∧ m.inverse? = some inverse ∧
    ¬ s.Reaches st.location target

namespace Pass

/-- The extension with visits inside visits up to a depth. -/
def extendWithin : Nat → Visit Unit
  | 0 => extendBranch none
  | depth + 1 => extendBranch (some (extendWithin depth))

variable {s : Sweep Unit} {id depth : Nat} {st : Statement} {m inverse : Mnemonic} {target : Expr}

/-! ### One statement -/

/-- The opposite branch reaches over the jump exactly if there is room. -/
theorem reaches_skip_iff {location : Location} :
    s.Reaches location (.pcPlus 5) ↔ s.context.env.pc.HasRoom := by
  have hvalue : (s.valueOf location (.pcPlus 5)).1 = s.context.env.pc + 5 := rfl
  rw [Sweep.Reaches, hvalue, displacement_skip]
  by_cases hroom : s.context.env.pc.HasRoom
  · simp only [hroom, iff_true]
    decide
  · simp only [hroom, iff_false]
    decide

/-- The opposite branch is replaced in turn exactly if there is no room. -/
theorem replaces_skip_iff (hinv : m.inverse? = some inverse) :
    s.Replaces (inPlace st (skippingBranch inverse)) ↔ ¬ s.context.env.pc.HasRoom := by
  rw [← @reaches_skip_iff s st.location]
  constructor
  · rintro ⟨m', inverse', target, hb, -, hfar⟩
    rw [branch?_skippingBranch] at hb
    cases hb
    exact hfar
  · exact fun hfar => ⟨inverse, m, .pcPlus 5, branch?_skippingBranch,
      Mnemonic.inverse?_inverse? hinv, hfar⟩

/-- Where no conditional branch is replaced nothing is visited again. -/
theorem extendBranch_of_not_replaces (h : ¬ s.Replaces st) (again again' : Option (Visit Unit)) :
    extendBranch again s id st = extendBranch again' s id st := by
  cases hb : st.item.branch? with
  | none => rw [extendBranch_other hb, extendBranch_other hb]
  | some branch =>
    obtain ⟨m, target⟩ := branch
    by_cases hreach : s.Reaches st.location target
    · rw [extendBranch_reaching hb hreach, extendBranch_reaching hb hreach]
    · by_cases hm : m = .bra
      · subst hm
        rw [extendBranch_always hb hreach, extendBranch_always hb hreach]
      · cases hinv : m.inverse? with
        | none => rw [extendBranch_stuck hb hm hinv hreach, extendBranch_stuck hb hm hinv hreach]
        | some inverse => exact absurd ⟨m, inverse, target, hb, hinv, hreach⟩ h

theorem extendWithin_of_not_replaces (h : ¬ s.Replaces st) :
    extendWithin depth s id st = extendBranches s id st := by
  cases depth <;> exact extendBranch_of_not_replaces h _ _

theorem not_replaces_jump : ¬ s.Replaces (inPlace st (jumpTo target)) := by
  rintro ⟨m, inverse, target', hb, -, -⟩
  rw [branch?_jumpTo] at hb
  cases hb

/-- The state in which what takes the place of a conditional branch is visited. -/
def skipState (s : Sweep Unit) (st : Statement) (m inverse : Mnemonic) (target : Expr) :
    Sweep Unit :=
  { ((s.valueOf st.location target).2.warn st.location (.branchExtended m inverse)).setChanged with
    size := s.size + 2 }

theorem env_skipState : (skipState s st m inverse target).context.env = s.context.env :=
  env_valueOf st.location target

/-- What takes the place of a conditional branch, given the visit of both its parts. -/
theorem extendBranch_some (hb : st.item.branch? = some (m, target))
    (hinv : m.inverse? = some inverse) (hfar : ¬ s.Reaches st.location target)
    (visit : Visit Unit) :
    extendBranch (some visit) s id st =
      let skip := visit (skipState s st m inverse target) s.size
        (inPlace st (skippingBranch inverse))
      let jump := visit skip.1 (s.size + 1) (inPlace st (jumpTo target))
      (jump.1, .sequence id st.location [skip.2, jump.2]) := by
  rw [extendBranch_conditional hb hinv hfar]
  rfl

/-- **Where there is room** for the opposite branch and the jump, it is enough to visit them
once. -/
theorem extendWithin_succ_of_room (h : s.Replaces st → s.context.env.pc.HasRoom) :
    extendWithin (depth + 1) s id st = extendBranches s id st := by
  by_cases hrep : s.Replaces st
  · have hroom := h hrep
    obtain ⟨m, inverse, target, hb, hinv, hfar⟩ := hrep
    have hskip : ¬ (skipState s st m inverse target).Replaces
        (inPlace st (skippingBranch inverse)) := by
      rw [replaces_skip_iff hinv, env_skipState]
      exact not_not_intro hroom
    rw [extendWithin, extendBranches, extendBranch_some hb hinv hfar,
      extendBranch_some hb hinv hfar]
    simp only [extendWithin_of_not_replaces hskip, extendWithin_of_not_replaces not_replaces_jump,
      extendBranch_of_not_replaces hskip none (some (extendBranch none)),
      extendBranch_of_not_replaces not_replaces_jump none (some (extendBranch none)),
      extendBranches]
  · exact extendWithin_of_not_replaces hrep

/-- Where no conditional branch is replaced there is no reason to give up. -/
theorem endless_of_not_replaces (h : ¬ s.Replaces st) (again : Option (Visit Unit)) :
    (extendBranch again s id st).1.context.Endless ↔ s.context.Endless := by
  rw [extendBranch_of_not_replaces h again (some (extendBranch none))]
  rcases extendBranches_cases s id st with
    ⟨-, heq⟩ | ⟨m, target, hb, ⟨-, heq⟩ | ⟨hfar, rfl | ⟨inverse, hinv⟩⟩⟩
  · rw [← extendBranches, heq]
    exact Context.endless_follow
  · rw [← extendBranches, heq]
    exact Context.endless_valueOf
  · rw [extendBranch_always hb hfar]
    exact Context.endless_follow.trans Context.endless_valueOf
  · exact absurd ⟨m, inverse, target, hb, hinv, hfar⟩ h

/-- **Where a depth does not suffice**: where a conditional branch is replaced, if the depth allows
no visit at all or there is no room. -/
theorem endless_extendWithin (depth : Nat) (s : Sweep Unit) (id : Nat) (st : Statement) :
    (extendWithin depth s id st).1.context.Endless ↔
      s.context.Endless ∨ s.Replaces st ∧ (depth = 0 ∨ ¬ s.context.env.pc.HasRoom) := by
  -- The opposite branch stands where the branch stood, so what fails here fails one visit deeper.
  induction depth generalizing s id st with
  | zero =>
    by_cases hrep : s.Replaces st
    · simp only [hrep, true_or, and_self, or_true, iff_true]
      obtain ⟨m, inverse, target, hb, hinv, hfar⟩ := hrep
      rw [extendWithin, extendBranch_conditional hb hinv hfar]
      exact Context.endless_error.mpr (.inr ⟨m, rfl⟩)
    · rw [extendWithin, endless_of_not_replaces hrep]
      simp [hrep]
  | succ depth ih =>
    by_cases hrep : s.Replaces st
    · simp only [hrep, true_and, Nat.add_one_ne_zero, false_or]
      obtain ⟨m, inverse, target, hb, hinv, hfar⟩ := hrep
      rw [extendWithin, extendBranch_some hb hinv hfar]
      have hstate : (skipState s st m inverse target).context.Endless ↔ s.context.Endless :=
        Context.endless_valueOf
      have hjump (t : Sweep Unit) :
          (extendWithin depth t (s.size + 1) (inPlace st (jumpTo target))).1.context.Endless ↔
            t.context.Endless := by
        rw [extendWithin_of_not_replaces not_replaces_jump]
        exact endless_of_not_replaces not_replaces_jump _
      rw [hjump, ih, replaces_skip_iff hinv, env_skipState, hstate]
      tauto
    · rw [extendWithin, endless_of_not_replaces hrep]
      simp [hrep]

/-! ### All statements -/

/-- Where a depth suffices it does not matter how much of it is left. -/
theorem extendWithin_eq
    (h : ¬ (s.Replaces st ∧ (depth = 0 ∨ ¬ s.context.env.pc.HasRoom))) :
    extendWithin depth s id st = extendBranches s id st := by
  cases depth with
  | zero => exact extendWithin_of_not_replaces fun hrep => h ⟨hrep, .inl rfl⟩
  | succ depth =>
    exact extendWithin_succ_of_room fun hrep => not_not.mp fun hroom => h ⟨hrep, .inr hroom⟩

/-- **When a depth does not suffice for a walk**: if it does not at one of the statements, where the
walk comes to it. -/
theorem endless_foldl (depth : Nat) (s : Sweep Unit) (leaves : List (Nat × Statement)) :
    (leaves.foldl (Visit.step (extendWithin depth)) s).context.Endless ↔
      s.context.Endless ∨ ∃ x ∈ reached (Visit.step extendBranches) s leaves,
        x.1.Replaces x.2.2 ∧ (depth = 0 ∨ ¬ x.1.context.env.pc.HasRoom) := by
  induction leaves generalizing s with
  | nil => simp
  | cons l rest ih =>
    rw [List.foldl_cons, ih]
    have hstep : (Visit.step (extendWithin depth) s l).context.Endless ↔ _ :=
      endless_extendWithin depth s l.1 l.2
    rw [hstep]
    by_cases hgiven : s.Replaces l.2 ∧ (depth = 0 ∨ ¬ s.context.env.pc.HasRoom)
    · -- A fault is never taken back, so the rest of the walk does not matter.
      simp [hgiven]
    · have heq : Visit.step (extendWithin depth) s l = Visit.step extendBranches s l :=
        congrArg Prod.fst (extendWithin_eq hgiven)
      rw [heq]
      simp [hgiven]

end Pass

namespace Workspace

open Pass (extendBranches extendWithin skippingBranch jumpTo inPlace)

/-- Visits inside visits up to a depth suffice for a run of the extension. -/
def ExtendsWithin (w : Workspace) (depth : Nat) : Prop :=
  ¬ (w.closing () (extendWithin depth)).context.Endless

variable {w : Workspace} {depth : Nat}

theorem extendsWithin_iff (hw : w.Clean) :
    w.ExtendsWithin depth ↔ ∀ x ∈ w.visits () extendBranches, x.1.Replaces x.2.2 →
      depth ≠ 0 ∧ x.1.context.env.pc.HasRoom := by
  have hopening : ¬ (w.opening ()).context.Endless :=
    fun h => Context.not_endless_of_clean hw (Context.endless_restart.mp h)
  rw [ExtendsWithin, closing, Pass.endless_foldl, visits]
  simp only [hopening, false_or, not_exists, not_and, not_or, not_not]

theorem endless_runPass (hw : w.Clean) (d : Discovery) :
    (w.runPass .extendBranches d).1.context.Endless ↔ ¬ w.ExtendsWithin 1 := by
  rw [runPass_of_visit Pass.visit?_extendBranches hw, sweep_eq, ExtendsWithin, not_not]
  exact Context.endless_restart

/-- **When the extension ends.** A run of the extension ends, that is, some depth of visits inside
visits suffices for it, exactly if there is room before the end of the range wherever it replaces a
conditional branch. Then it does not matter how much deeper visits might go, and if there is no end,
the run gives up. Where a conditional branch is replaced, the displacement of the opposite branch is
that over the jump if there is room, and the least of all words if not; with room, what takes the
place of the branch is not touched again, however deep visits may go. -/
theorem extension_ends_iff (w : Workspace) (hw : w.Clean) :
    ((∃ depth, w.ExtendsWithin depth) ↔
        ∀ x ∈ w.visits () extendBranches, x.1.Replaces x.2.2 → x.1.context.env.pc.HasRoom) ∧
      (∀ depth, w.ExtendsWithin depth → ∀ more,
        w.sweep () (extendWithin (depth + more)) id = w.sweep () extendBranches id) ∧
      (∀ d, (w.runPass .extendBranches d).1.context.Endless ↔ ¬ ∃ depth, w.ExtendsWithin depth) ∧
      ∀ x ∈ w.visits () extendBranches, ∀ m inverse target,
        x.2.2.item.branch? = some (m, target) → m.inverse? = some inverse →
        ¬ x.1.Reaches x.2.2.location target →
          displacement (x.1.valueOf x.2.2.location (.pcPlus 5)).1 x.1.context.env.pc =
              (if x.1.context.env.pc.HasRoom then 3 else Int64.minValue) ∧
          (x.1.context.env.pc.HasRoom → ∀ depth,
            (extendWithin (depth + 1) x.1 x.2.1 x.2.2).2 =
              .sequence x.2.1 x.2.2.location
                [.leaf x.1.size (inPlace x.2.2 (skippingBranch inverse)),
                  .leaf (x.1.size + 1) (inPlace x.2.2 (jumpTo target))]) := by
  have hends : (∃ depth, w.ExtendsWithin depth) ↔
      ∀ x ∈ w.visits () extendBranches, x.1.Replaces x.2.2 → x.1.context.env.pc.HasRoom := by
    constructor
    · rintro ⟨depth, h⟩ x hx hrep
      exact ((extendsWithin_iff hw).mp h x hx hrep).2
    · intro h
      refine ⟨1, (extendsWithin_iff hw).mpr fun x hx hrep => ?_⟩
      exact ⟨Nat.one_ne_zero, h x hx hrep⟩
  refine ⟨hends, fun depth h more => ?_, fun d => ?_, ?_⟩
  · refine (sweep_congr fun x hx => (Pass.extendWithin_eq ?_).symm).symm
    rintro ⟨hrep, hgiven⟩
    obtain ⟨hdepth, hroom⟩ := (extendsWithin_iff hw).mp h x hx hrep
    rcases hgiven with hzero | hnone
    · exact hdepth (Nat.add_eq_zero_iff.mp hzero).1
    · exact hnone hroom
  · rw [endless_runPass hw, not_iff_not, hends, extendsWithin_iff hw]
    simp
  · intro x _ m inverse target hb hinv hfar
    refine ⟨displacement_skip _, fun hroom depth => ?_⟩
    rw [Pass.extendWithin_succ_of_room fun _ => hroom]
    exact (Pass.extendBranches_conditional hb hinv hfar).1

/-- A conditional branch at the last address there is. -/
def lastAddress : List Char :=
  "  .org 9223372036854775807\n  beq 0\n".toList

/-- The branch is replaced, and there is no room: visits inside visits do not end. -/
theorem extension_ends_lastAddress :
    let read := Source.read .mos6502 .empty (.ok []) [.text "last" lastAddress ""]
    let w := (Stage.sizing.go (Assembly.behindStage {} read.program read.diagnostics 6)).1
    w.Clean ∧
      (w.visits () extendBranches).map (fun x => x.1.context.env.pc) = [0, Int64.maxValue] ∧
      (w.runPass .extendBranches {}).1.context.diagnostics.errors.map (·.value) =
        [.pass (.endlessExtension .bne)] ∧
      ∀ depth, ¬ w.ExtendsWithin depth := by
  intro read w
  obtain ⟨hclean, hpcs, hfaults⟩ : w.context.hasErrors = false ∧
      (w.visits () extendBranches).map (fun x => x.1.context.env.pc) = [0, Int64.maxValue] ∧
      (w.runPass .extendBranches {}).1.context.diagnostics.errors.map (·.value) =
        [.pass (.endlessExtension .bne)] := by
    decide +kernel
  have hendless : (w.runPass .extendBranches {}).1.context.Endless := by
    have hmem : Fault.pass (.endlessExtension .bne) ∈
        (w.runPass .extendBranches {}).1.context.diagnostics.errors.map (·.value) := by
      rw [hfaults]
      exact List.mem_singleton_self _
    obtain ⟨fault, hfault, hvalue⟩ := List.mem_map.mp hmem
    exact ⟨fault, hfault, .bne, hvalue⟩
  obtain ⟨-, -, hgives, -⟩ := extension_ends_iff w hclean
  exact ⟨hclean, hpcs, hfaults, fun depth h => (hgives {}).mp hendless ⟨depth, h⟩⟩

end Workspace
end Assembler6502
