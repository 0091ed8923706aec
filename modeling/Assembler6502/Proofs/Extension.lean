import Assembler6502.Proofs.Tracking

/-!
# Extension of branches

A run of the extension decides on every branch as it comes to it, by the distance that it counts at
that moment. A branch that reaches its target is passed over like any other instruction; one that
does not is replaced, and the replacement holds no branch that the same run would touch again.

## Main definitions

* `Sweep.Reaches`: the branch reaches its target as a pass counts it

## Main results

* `Pass.extendBranches_always`, `Pass.extendBranches_conditional`: what takes the place of a branch
  that does not reach
* `Pass.extendBranches_cases`: what a run can do at a statement
* `Pass.observes_extendBranches`: a run that changes nothing only observes
-/

namespace Assembler6502

/-! ## Branches -/

theorem Item.branch?_eq_some {item : Item} {m : Mnemonic} {target : Expr} :
    item.branch? = some (m, target) ↔ item = .instruction (.resolved m .relative target) := by
  cases item with
  | instruction i =>
    obtain ⟨mnemonic, addressing, operand⟩ := i
    by_cases h : addressing = .resolved .relative
    · cases operand <;> simp [Item.branch?, Instruction.branchTarget?, Instruction.resolved, h]
    · simp [Item.branch?, Instruction.branchTarget?, Instruction.resolved, h]
  | _ => simp [Item.branch?]

/-- The opposite of a branch is a branch of which the opposite is the branch. -/
theorem Mnemonic.inverse?_inverse? {m inverse : Mnemonic} (h : m.inverse? = some inverse) :
    inverse.inverse? = some m := by
  cases m <;> simp [Mnemonic.inverse?] at h <;> subst h <;> rfl

theorem Mnemonic.ne_bra_of_inverse? {m inverse : Mnemonic} (h : m.inverse? = some inverse) :
    m ≠ .bra := by
  rintro rfl
  cases h

/-- A pass at a branch counts its target as near enough. -/
def Sweep.Reaches {μ : Type} (s : Sweep μ) (location : Location) (target : Expr) : Prop :=
  fitsByte (displacement (s.valueOf location target).1 s.context.env.pc) = true

namespace Pass

variable {s : Sweep Unit} {id : Nat} {st : Statement} {m inverse : Mnemonic} {target : Expr}

theorem branch?_jumpTo : (inPlace st (jumpTo target)).item.branch? = none := rfl

theorem branch?_skippingBranch :
    (inPlace st (skippingBranch inverse)).item.branch? = some (inverse, .pcPlus 5) := rfl

/-! ## One statement -/

variable {again : Option (Visit Unit)}

theorem env_valueOf {μ : Type} {s : Sweep μ} (location : Location) (e : Expr) :
    (s.valueOf location e).2.context.env = s.context.env := by
  simp only [Sweep.context_valueOf, Context.valueOf]
  split <;> rfl

theorem extendBranch_other (h : st.item.branch? = none) :
    extendBranch again s id st = (s.mapContext (·.follow st), .leaf id st) := by
  unfold extendBranch
  split
  · rename_i i hitem
    have ht : i.branchTarget? = none := by simpa [Item.branch?, hitem] using h
    simp [ht]
  · rfl

/-- What happens at a branch, by whether it reaches its target. -/
theorem extendBranch_branch (h : st.item.branch? = some (m, target)) :
    extendBranch again s id st =
      let s' := (s.valueOf st.location target).2
      if fitsByte (displacement (s.valueOf st.location target).1 s.context.env.pc) then
        (s'.mapEnv (·.advancePc 2), .leaf id st)
      else if m = .bra then replaceByJump s' id st m target
      else
        m.inverse?.elim (s'.mapEnv (·.advancePc 2), .leaf id st)
          fun inverse => replaceBySkip again s' id st m inverse target := by
  have hitem := Item.branch?_eq_some.mp h
  have htarget : (Instruction.resolved m .relative target).branchTarget? = some target := rfl
  have hmnemonic : (Instruction.resolved m .relative target).mnemonic = m := rfl
  unfold extendBranch
  rw [hitem]
  cases hinv : m.inverse? with
  | none => simp only [htarget, hmnemonic, env_valueOf, hinv, Option.elim_none]
  | some inverse => simp only [htarget, hmnemonic, env_valueOf, hinv, Option.elim_some]

theorem extendBranch_reaching (h : st.item.branch? = some (m, target))
    (hreach : s.Reaches st.location target) :
    extendBranch again s id st =
      ((s.valueOf st.location target).2.mapEnv (·.advancePc 2), .leaf id st) := by
  rw [extendBranch_branch h]
  exact if_pos hreach

theorem extendBranch_always (h : st.item.branch? = some (.bra, target))
    (hfar : ¬ s.Reaches st.location target) :
    extendBranch again s id st =
      replaceByJump (s.valueOf st.location target).2 id st .bra target := by
  rw [extendBranch_branch h]
  exact if_neg hfar

theorem extendBranch_conditional (h : st.item.branch? = some (m, target))
    (hinv : m.inverse? = some inverse) (hfar : ¬ s.Reaches st.location target) :
    extendBranch again s id st =
      replaceBySkip again (s.valueOf st.location target).2 id st m inverse target := by
  rw [extendBranch_branch h]
  simp only [hinv]
  exact (if_neg hfar).trans (if_neg (Mnemonic.ne_bra_of_inverse? hinv))

theorem extendBranch_stuck (h : st.item.branch? = some (m, target)) (hm : m ≠ .bra)
    (hinv : m.inverse? = none) (hfar : ¬ s.Reaches st.location target) :
    extendBranch again s id st =
      ((s.valueOf st.location target).2.mapEnv (·.advancePc 2), .leaf id st) := by
  rw [extendBranch_branch h]
  simp only [hinv]
  exact (if_neg hfar).trans (if_neg hm)

/-! ## What takes the place of a branch -/

theorem changed_extendBranch_none (hs : s.changed = true) :
    (extendBranch none s id st).1.changed = true := by
  cases h : st.item.branch? with
  | none => rw [extendBranch_other h]; exact hs
  | some branch =>
    obtain ⟨m, target⟩ := branch
    rw [extendBranch_branch h]
    dsimp only
    split
    · exact hs
    · split
      · rfl
      · cases m.inverse? with
        | none => exact hs
        | some inverse => rfl

/-- The opposite branch is not replaced in turn: where it would have to be, that is a fault. -/
theorem snd_extendBranch_skippingBranch (hinv : m.inverse? = some inverse) :
    (extendBranch none s id (inPlace st (skippingBranch inverse))).2 =
      .leaf id (inPlace st (skippingBranch inverse)) := by
  have hback := Mnemonic.inverse?_inverse? hinv
  by_cases hreach : s.Reaches st.location (.pcPlus 5)
  · rw [extendBranch_reaching branch?_skippingBranch hreach]
  · rw [extendBranch_conditional branch?_skippingBranch hback hreach]
    rfl

/-- **A conditional branch that does not reach its target** is replaced by the opposite branch and a
jump to the target. -/
theorem extendBranches_conditional (h : st.item.branch? = some (m, target))
    (hinv : m.inverse? = some inverse) (hfar : ¬ s.Reaches st.location target) :
    (extendBranches s id st).2 =
        .sequence id st.location [.leaf s.size (inPlace st (skippingBranch inverse)),
          .leaf (s.size + 1) (inPlace st (jumpTo target))] ∧
      (extendBranches s id st).1.changed = true := by
  rw [extendBranches, extendBranch_conditional h hinv hfar]
  simp only [replaceBySkip, snd_extendBranch_skippingBranch hinv,
    extendBranch_other branch?_jumpTo, Sweep.size_setChanged, Sweep.size_warn, Sweep.size_valueOf,
    Sweep.changed_mapContext, true_and]
  exact changed_extendBranch_none rfl

/-- **A branch that is always taken and does not reach its target** is replaced by a jump to it. -/
theorem extendBranches_always (h : st.item.branch? = some (.bra, target))
    (hfar : ¬ s.Reaches st.location target) :
    (extendBranches s id st).2 = .leaf id (inPlace st (jumpTo target)) ∧
      (extendBranches s id st).1.changed = true := by
  rw [extendBranches, extendBranch_always h hfar]
  exact ⟨rfl, rfl⟩

/-! ## All cases -/

/-- What a run of the extension can do at a statement: it follows what is no branch, passes over a
branch that reaches its target or can not be replaced, and replaces any other one. -/
theorem extendBranches_cases (s : Sweep Unit) (id : Nat) (st : Statement) :
    (st.item.branch? = none ∧ extendBranches s id st = (s.mapContext (·.follow st), .leaf id st)) ∨
      ∃ m target, st.item.branch? = some (m, target) ∧
        ((s.Reaches st.location target ∨ m ≠ .bra ∧ m.inverse? = none) ∧
            extendBranches s id st =
              ((s.valueOf st.location target).2.mapEnv (·.advancePc 2), .leaf id st) ∨
          ¬ s.Reaches st.location target ∧ (m = .bra ∨ ∃ inverse, m.inverse? = some inverse)) := by
  cases hb : st.item.branch? with
  | none => exact .inl ⟨rfl, extendBranch_other hb⟩
  | some branch =>
    obtain ⟨m, target⟩ := branch
    refine .inr ⟨m, target, rfl, ?_⟩
    by_cases hreach : s.Reaches st.location target
    · exact .inl ⟨.inl hreach, extendBranch_reaching hb hreach⟩
    · by_cases hm : m = .bra
      · exact .inr ⟨hreach, .inl hm⟩
      · cases hinv : m.inverse? with
        | none => exact .inl ⟨.inr ⟨hm, rfl⟩, extendBranch_stuck hb hm hinv hreach⟩
        | some inverse => exact .inr ⟨hreach, .inr ⟨inverse, rfl⟩⟩

/-- What takes the place of a statement is a sequence only for a conditional branch that does not
reach its target. -/
theorem conditional_of_sequence {number : Nat} {location : Location} {children : List Node}
    (h : (extendBranches s id st).2 = .sequence number location children) :
    ∃ m inverse target, st.item.branch? = some (m, target) ∧ m.inverse? = some inverse ∧
      ¬ s.Reaches st.location target := by
  rcases extendBranches_cases s id st with
    ⟨-, heq⟩ | ⟨m, target, hb, ⟨-, heq⟩ | ⟨hfar, rfl | ⟨inverse, hinv⟩⟩⟩
  · rw [heq] at h
    cases h
  · rw [heq] at h
    cases h
  · rw [(extendBranches_always hb hfar).1] at h
    cases h
  · exact ⟨m, inverse, target, hb, hinv, hfar⟩

/-- A branch takes two bytes and is never a fault to follow. -/
theorem follow_branch {item : Item} (env : Environment) (h : item.branch? = some (m, target)) :
    env.follow item = env.advancePc 2 ∧ env.Followable item := by
  rw [Item.branch?_eq_some.mp h]
  exact ⟨rfl, trivial⟩

/-! ## Runs that change nothing -/

/-- Where there is no branch, or one that reaches its target, the run follows the statement and
returns it. -/
theorem extendBranches_observed {l : Nat × Statement} (hf : s.context.env.Followable l.2.item)
    (hb : ∀ m target, l.2.item.branch? = some (m, target) → ∃ v,
      s.context.evaluate target = .ok v ∧
        fitsByte (displacement v s.context.env.pc) = true) :
    extendBranches s l.1 l.2 = (s.mapEnv (·.follow l.2.item), .leaf l.1 l.2) := by
  cases h : l.2.item.branch? with
  | none => rw [extendBranches, extendBranch_other h, Sweep.follow_eq hf]
  | some branch =>
    obtain ⟨m, target⟩ := branch
    obtain ⟨v, hv, hfit⟩ := hb m target h
    have hvo := @Sweep.valueOf_of_evaluate _ s l.2.location target v hv
    have hreach : s.Reaches l.2.location target := by rwa [Sweep.Reaches, hvo]
    rw [extendBranches, extendBranch_reaching h hreach, hvo]
    simp only [(follow_branch _ h).1]

/-- Where the run finds no fault and changes nothing it follows the statement and returns it. -/
theorem extendBranches_of_quiet {l : Nat × Statement}
    (h : (Visit.step extendBranches s l).Quiet) :
    s.Quiet ∧ extendBranches s l.1 l.2 = (s.mapEnv (·.follow l.2.item), .leaf l.1 l.2) := by
  obtain ⟨hclean, hunchanged⟩ := h
  simp only [Visit.step] at hclean hunchanged
  rcases extendBranches_cases s l.1 l.2 with
    ⟨-, heq⟩ | ⟨m, target, hb, ⟨-, heq⟩ | ⟨hfar, rfl | ⟨inverse, hinv⟩⟩⟩
  · rw [heq] at hclean hunchanged ⊢
    obtain ⟨hs, hf⟩ := Context.followable_of_follow hclean
    exact ⟨⟨hs, hunchanged⟩, by rw [Sweep.follow_eq hf]⟩
  · rw [heq] at hclean hunchanged ⊢
    obtain ⟨hs, v, -, hvo⟩ := Sweep.evaluate_of_valueOf hclean
    refine ⟨⟨hs, hunchanged⟩, ?_⟩
    rw [hvo]
    simp only [(follow_branch _ hb).1]
  -- A branch that is replaced counts as a change.
  · rw [(extendBranches_always hb hfar).2] at hunchanged
    cases hunchanged
  · rw [(extendBranches_conditional hb hinv hfar).2] at hunchanged
    cases hunchanged

theorem observes_extendBranches {w : Workspace} (h : (w.closing () extendBranches).Quiet) :
    w.Observes () extendBranches := fun x hx =>
  (extendBranches_of_quiet
    (forall_reached_of_foldl (fun _ _ hs => (extendBranches_of_quiet hs).1) h x hx)).2

/-! ## Runs without a fault -/

theorem reaches_pcPlus_congr {s' : Sweep Unit} {location : Location} {k : Value}
    (henv : s'.context.env = s.context.env) (h : s'.Reaches location (.pcPlus k)) :
    s.Reaches location (.pcPlus k) := by
  have hvalue (r : Sweep Unit) :
      (r.valueOf location (.pcPlus k)).1 = r.context.env.pc + k := rfl
  rw [Sweep.Reaches, hvalue] at h ⊢
  rwa [← henv]

/-- The opposite branch is passed over, if that is no fault. -/
theorem skip_of_clean (hinv : m.inverse? = some inverse)
    (h : (extendBranch none s id (inPlace st (skippingBranch inverse))).1.context.hasErrors =
      false) :
    s.context.hasErrors = false ∧ s.Reaches st.location (.pcPlus 5) ∧
      extendBranch none s id (inPlace st (skippingBranch inverse)) =
        (s.mapEnv (·.advancePc 2), .leaf id (inPlace st (skippingBranch inverse))) := by
  by_cases hreach : s.Reaches st.location (.pcPlus 5)
  · have heq := @extendBranch_reaching s id _ _ _ none (@branch?_skippingBranch st inverse) hreach
    rw [heq] at h ⊢
    exact ⟨h, hreach, rfl⟩
  · -- The visit comes without a way to visit again, so a replacement is a fault.
    rw [extendBranch_conditional branch?_skippingBranch (Mnemonic.inverse?_inverse? hinv)
      hreach] at h
    simp [replaceBySkip] at h

/-- Where a conditional branch is replaced without a fault, the opposite branch reaches over the
jump, and the run goes on behind both. -/
theorem extendBranches_conditional_of_clean (h : st.item.branch? = some (m, target))
    (hinv : m.inverse? = some inverse) (hfar : ¬ s.Reaches st.location target)
    (hclean : (extendBranches s id st).1.context.hasErrors = false) :
    (s.valueOf st.location target).2.context.hasErrors = false ∧
      s.Reaches st.location (.pcPlus 5) ∧
      (extendBranches s id st).1.context.env =
        (s.context.env.follow (.instruction (skippingBranch inverse))).follow
          (.instruction (jumpTo target)) := by
  rw [extendBranches, extendBranch_conditional h hinv hfar] at hclean ⊢
  simp only [replaceBySkip, extendBranch_other branch?_jumpTo, Sweep.context_mapContext] at hclean ⊢
  have hskip := (Context.followable_of_follow hclean).1
  obtain ⟨hs, hreach, heq⟩ := skip_of_clean hinv hskip
  have henv : ((s.valueOf st.location target).2.warn st.location
      (.branchExtended m inverse)).setChanged.context.env = s.context.env :=
    env_valueOf st.location target
  refine ⟨hs, reaches_pcPlus_congr henv hreach, ?_⟩
  rw [heq, ← henv]
  rfl

/-- **A run without a fault** goes on behind what it has put in the place of a statement, and the
target of a branch had a value. -/
theorem extendBranches_of_clean {l : Nat × Statement}
    (h : (Visit.step extendBranches s l).context.hasErrors = false) :
    s.context.hasErrors = false ∧
      (Visit.step extendBranches s l).context.env =
        s.context.env.layoutEnd (extendBranches s l.1 l.2).2.leaves ∧
      ∀ m target, l.2.item.branch? = some (m, target) → ∃ v, s.context.evaluate target = .ok v := by
  simp only [Visit.step] at h ⊢
  rcases extendBranches_cases s l.1 l.2 with
    ⟨hb, heq⟩ | ⟨m, target, hb, hcases⟩
  · rw [heq] at h ⊢
    obtain ⟨hs, hf⟩ := Context.followable_of_follow h
    refine ⟨hs, ?_, by simp [hb]⟩
    rw [Sweep.follow_eq hf]
    simp [Environment.layoutEnd, Node.leaves]
  -- At a branch everything but the new environment comes from asking for the target.
  · suffices hvalue : (s.valueOf l.2.location target).2.context.hasErrors = false ∧
        (extendBranches s l.1 l.2).1.context.env =
          s.context.env.layoutEnd (extendBranches s l.1 l.2).2.leaves by
      obtain ⟨hclean, henv⟩ := hvalue
      obtain ⟨hs, v, hv, -⟩ := Sweep.evaluate_of_valueOf hclean
      refine ⟨hs, henv, fun m' target' hb' => ?_⟩
      rw [hb] at hb'
      cases hb'
      exact ⟨v, hv⟩
    rcases hcases with ⟨-, heq⟩ | ⟨hfar, rfl | ⟨inverse, hinv⟩⟩
    · rw [heq] at h ⊢
      refine ⟨h, ?_⟩
      simp only [Node.leaves, Environment.layoutEnd, List.foldl_cons, List.foldl_nil,
        (follow_branch _ hb).1, Sweep.context_mapEnv, Context.env_mapEnv, env_valueOf]
    · rw [extendBranches, extendBranch_always hb hfar] at h ⊢
      refine ⟨(Context.followable_of_follow h).1, ?_⟩
      rw [← @env_valueOf _ s l.2.location target]
      rfl
    · obtain ⟨hs, -, henv⟩ := extendBranches_conditional_of_clean hb hinv hfar h
      refine ⟨hs, ?_⟩
      rw [henv, (extendBranches_conditional hb hinv hfar).1]
      rfl

/-- The opposite branch is never replaced in a later run without a fault. -/
theorem snd_extendBranches_skippingBranch (hinv : m.inverse? = some inverse)
    (h : (extendBranches s id (inPlace st (skippingBranch inverse))).1.context.hasErrors = false) :
    (extendBranches s id (inPlace st (skippingBranch inverse))).2 =
      .leaf id (inPlace st (skippingBranch inverse)) := by
  by_cases hreach : s.Reaches st.location (.pcPlus 5)
  · rw [extendBranches, extendBranch_reaching branch?_skippingBranch hreach]
  · have hback := Mnemonic.inverse?_inverse? hinv
    exact absurd (extendBranches_conditional_of_clean branch?_skippingBranch hback hreach h).2.1
      hreach

end Pass
end Assembler6502
