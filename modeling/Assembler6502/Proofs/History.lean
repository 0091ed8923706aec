import Assembler6502.Proofs.Rounds

/-!
# Histories of stages

The history of a stage lists the passes that it runs, in order, each with the workspace that it was
given and the one that it returned. The history of a stage is traced: it leads from the workspace
that the stage was given to the one that it returned, and where a group has run out of rounds in
between there is a fault. What is said of all passes of a stage follows from that by induction along
the history. If a stage ends without a fault, then its history is linked: no pass of it found a
fault, and no group has run out of rounds.

## Main definitions

* `Stage.Entry`: a pass with the workspaces before and behind it
* `Stage.history`: the passes that a stage runs
* `Stage.Traced`: a list of entries in which every pass is given what the one before it returned,
  unless a group has run out of rounds in between
* `Stage.Linked`: the same, where no group has run out of rounds
* `Assembly.entries`: the passes of assembling a program

## Main results

* `Stage.lockstep_run`: two runs of a stage in lockstep
* `Stage.linked_history`: the history of a stage that ends without a fault is linked
* `Stage.kind_mem_kinds`: a stage runs no passes but its own
* `Stage.Linked.kept_or_lost`: what every pass either keeps or loses for good
* `Stage.Traced.kept`: what every pass keeps, with a fault or without one, holds behind each of them
-/

namespace Assembler6502

/-- A pass with the workspace that it was given and the one that it returned. -/
structure Stage.Entry (π : Type := Program) where
  kind : Pass.Kind
  before : Workspace π
  after : Workspace π

variable {π : Type} [Sweepable π]

/-- The passes of the rounds of a group, given those of one round. -/
def Workspace.iterateHistory (round : Round π)
    (history : Workspace π → List Stage.Memory → List (Stage.Entry π)) :
    Nat → Workspace π → List Stage.Memory → List (Stage.Entry π)
  | 0, _, _ => []
  | rounds + 1, w, m =>
    if w.context.hasErrors then []
    else
      history w m ++
        if (round w m).1.context.hasErrors || !(round w m).2.1 then []
        else iterateHistory round history rounds (round w m).1 (round w m).2.2

namespace Stage

mutual

/-- The passes that a stage runs. -/
def history : Stage → Workspace π → Memory → List (Entry π)
  | pass kind, w, m => [⟨kind, w, (w.runPass kind m.discovery).1⟩]
  | fixpoint _ stages rounds, w, m =>
    Workspace.iterateHistory (fun w ms => runAll stages w ms) (fun w ms => historyAll stages w ms)
      rounds w m.members

/-- The passes that stages run in order. -/
def historyAll : List Stage → Workspace π → List Memory → List (Entry π)
  | [], _, _ => []
  | stage :: rest, w, ms =>
    history stage w (ms.headD .fresh) ++
      historyAll rest (run stage w (ms.headD .fresh)).1 ms.tail

end

mutual

/-- The passes that a stage is made of. -/
def kinds : Stage → List Pass.Kind
  | pass kind => [kind]
  | fixpoint _ stages _ => kindsAll stages

/-- The passes that stages are made of. -/
def kindsAll : List Stage → List Pass.Kind
  | [] => []
  | stage :: rest => kinds stage ++ kindsAll rest

end

/-! ## Two runs -/

section Lockstep

variable {ρ : Type} [Sweepable ρ] {A : Workspace π → Workspace ρ → Prop} {S : Prop}

/-- Both workspaces have faults or none, and the fault that a group ran out of rounds does not
matter to the relation. -/
structure Lockstep (A : Workspace π → Workspace ρ → Prop) : Prop where
  faults : ∀ {w v}, A w v → w.context.hasErrors = v.context.hasErrors
  exhausted : ∀ {w v} name, A w v →
    A { w with context := w.context.error .topLevel (.pass (.noConvergence name)) }
      { v with context := v.context.error .topLevel (.pass (.noConvergence name)) }

/-- The pass keeps a relation between workspaces and reports a change on both sides or on none. If
`S` holds, then what it keeps in mind is the same on both sides, too. -/
def LockstepPass (A : Workspace π → Workspace ρ → Prop) (S : Prop) (kind : Pass.Kind) : Prop :=
  ∀ (w : Workspace π) (v : Workspace ρ) (d d' : Discovery), A w v → (S → d = d') →
    A (w.runPass kind d).1 (v.runPass kind d').1 ∧
      (w.runPass kind d).2.1 = (v.runPass kind d').2.1 ∧
      (S → (w.runPass kind d).2.2 = (v.runPass kind d').2.2)

mutual

/-- **Two runs of a stage in lockstep** keep a relation that every pass keeps. -/
theorem lockstep_run (hA : Lockstep A) : ∀ stage : Stage,
    (∀ kind ∈ stage.kinds, LockstepPass A S kind) →
      ∀ {w v} {m m' : Memory}, A w v → (S → m = m') →
        A (stage.run w m).1 (stage.run v m').1 ∧ (stage.run w m).2.1 = (stage.run v m').2.1 ∧
          (S → (stage.run w m).2.2 = (stage.run v m').2.2)
  | pass kind, hpass, w, v, m, m', h, hm => by
    obtain ⟨hnext, hchanged, hd⟩ := hpass kind (by simp [kinds]) w v m.discovery m'.discovery h
      fun hs => congrArg Memory.discovery (hm hs)
    simp only [run]
    exact ⟨hnext, hchanged, fun hs => congrArg Memory.pass (hd hs)⟩
  | fixpoint name stages rounds, hpass, w, v, m, m', h, hm => by
    rw [kinds] at hpass
    obtain ⟨⟨hnext, hms⟩, hchanged⟩ := Workspace.iterate_lockstep
      (A := fun w ms v ms' => A w v ∧ (S → ms = ms')) (fun h => hA.faults h.1)
      (fun h =>
        have hround := lockstep_runAll hA stages hpass h.1 h.2
        ⟨⟨hround.1, hround.2.2⟩, hround.2.1⟩)
      (fun h => ⟨hA.exhausted name h.1, h.2⟩) rounds false
      ⟨h, fun hs => congrArg Memory.members (hm hs)⟩
    simp only [run]
    exact ⟨hnext, hchanged, fun hs => congrArg Memory.group (hms hs)⟩

theorem lockstep_runAll (hA : Lockstep A) : ∀ stages : List Stage,
    (∀ kind ∈ kindsAll stages, LockstepPass A S kind) →
      ∀ {w v} {ms ms' : List Memory}, A w v → (S → ms = ms') →
        A (runAll stages w ms).1 (runAll stages v ms').1 ∧
          (runAll stages w ms).2.1 = (runAll stages v ms').2.1 ∧
          (S → (runAll stages w ms).2.2 = (runAll stages v ms').2.2)
  | [], _, w, v, ms, ms', h, _ => by
    simp only [runAll]
    exact ⟨h, trivial, fun _ => trivial⟩
  | stage :: rest, hpass, w, v, ms, ms', h, hms => by
    rw [kindsAll] at hpass
    obtain ⟨hnext, hchanged, hm⟩ := lockstep_run hA stage
      (fun kind hkind => hpass kind (List.mem_append_left _ hkind)) h
      fun hs => congrArg (·.headD .fresh) (hms hs)
    have hrest := lockstep_runAll hA rest
      (fun kind hkind => hpass kind (List.mem_append_right _ hkind)) hnext
      fun hs => congrArg List.tail (hms hs)
    cases rest with
    | nil =>
      simp only [runAll]
      exact ⟨hnext, hchanged, fun hs => congrArg (fun m => [m]) (hm hs)⟩
    | cons other rest =>
      simp only [runAll] at hrest ⊢
      exact ⟨hrest.1, hrest.2.1, fun hs => by rw [hm hs, hrest.2.2 hs]⟩

end

/-- Two runs of stages in lockstep, from the first time on. -/
theorem lockstep_runStages (hA : Lockstep A) {stages : List Stage}
    (hpass : ∀ kind ∈ kindsAll stages, LockstepPass A S kind) {w : Workspace π} {v : Workspace ρ}
    (h : A w v) : A (Assembly.runStages stages w) (Assembly.runStages stages v) := by
  induction stages generalizing w v with
  | nil => exact h
  | cons stage rest ih =>
    rw [kindsAll] at hpass
    have hfirst := lockstep_run hA stage (m := .fresh)
      (fun kind hkind => hpass kind (List.mem_append_left _ hkind)) h fun _ => rfl
    exact ih (fun kind hkind => hpass kind (List.mem_append_right _ hkind)) hfirst.1

end Lockstep

/-! ## Traced histories -/

/-- Every pass is given what the one before it returned, unless a group has run out of rounds in
between. -/
inductive Traced : Workspace π → List (Entry π) → Workspace π → Prop
  | nil (w : Workspace π) : Traced w [] w
  | cons {entry : Entry π} {rest : List (Entry π)} {w : Workspace π} (d : Discovery)
      (hafter : entry.after = (entry.before.runPass entry.kind d).1)
      (hrest : Traced entry.after rest w) : Traced entry.before (entry :: rest) w
  | exhausted {u w : Workspace π} {entries : List (Entry π)} (name : String)
      (hrest : Traced
        { u with context := u.context.error .topLevel (.pass (.noConvergence name)) } entries w) :
      Traced u entries w

theorem Traced.append {u v w : Workspace π} {first second : List (Entry π)} (h : Traced u first v)
    (h' : Traced v second w) : Traced u (first ++ second) w := by
  induction h with
  | nil => exact h'
  | cons d hafter _ ih => exact .cons d hafter (ih h')
  | exhausted name _ ih => exact .exhausted name (ih h')

theorem traced_iterate {name : String} {round : Workspace.Round π}
    {history : Workspace π → List Memory → List (Entry π)}
    (hround : ∀ w m, Traced w (history w m) (round w m).1) (rounds : Nat) (changed : Bool)
    (w : Workspace π) (m : List Memory) :
    Traced w (Workspace.iterateHistory round history rounds w m)
      (Workspace.iterate name round rounds changed w m).1 := by
  induction rounds generalizing changed w m with
  | zero => exact .exhausted name (.nil _)
  | succ rounds ih =>
    by_cases hclean : w.context.hasErrors = true
    · simp only [Workspace.iterate, Workspace.iterateHistory, hclean, if_true]
      exact .nil w
    · rw [Workspace.iterate_succ (Bool.eq_false_iff.mpr hclean), Workspace.iterateHistory,
        if_neg hclean]
      split
      · rw [List.append_nil]
        exact hround w m
      · exact (hround w m).append (ih true _ _)

mutual

/-- **The history of a stage** leads to what the stage returns, with a fault or without one. -/
theorem traced_history : ∀ (stage : Stage) (w : Workspace π) (m : Memory),
    Traced w (stage.history w m) (stage.run w m).1
  | pass kind, w, m => by
    rw [history, run_pass]
    exact @Traced.cons _ _ ⟨kind, w, _⟩ [] _ m.discovery rfl (.nil _)
  | fixpoint name stages rounds, w, m => by
    rw [run_fixpoint, history]
    exact traced_iterate (fun w ms => traced_historyAll stages w ms) rounds false w m.members

theorem traced_historyAll : ∀ (stages : List Stage) (w : Workspace π) (ms : List Memory),
    Traced w (historyAll stages w ms) (runAll stages w ms).1
  | [], w, ms => by
    rw [historyAll, runAll]
    exact .nil w
  | [stage], w, ms => by
    rw [runAll_single.1]
    simp only [historyAll, List.append_nil]
    exact traced_history stage w _
  | stage :: other :: rest, w, ms => by
    rw [historyAll, runAll]
    exact (traced_history stage w _).append (traced_historyAll (other :: rest) _ _)

end

/-! ## Linked histories -/

/-- Every pass is given what the one before it returned. -/
inductive Linked : Workspace π → List (Entry π) → Workspace π → Prop
  | nil (w : Workspace π) : Linked w [] w
  | cons {entry : Entry π} {rest : List (Entry π)} {w : Workspace π} (d : Discovery)
      (hafter : entry.after = (entry.before.runPass entry.kind d).1)
      (hrest : Linked entry.after rest w) : Linked entry.before (entry :: rest) w

theorem Linked.clean {u w : Workspace π} {entries : List (Entry π)} (h : Linked u entries w)
    (hw : w.Clean) : u.Clean := by
  induction h with
  | nil => exact hw
  | cons d hafter _ ih => exact Workspace.clean_of_runPass (hafter ▸ ih hw)

theorem Traced.linked {u w : Workspace π} {entries : List (Entry π)} (h : Traced u entries w)
    (hw : w.Clean) : Linked u entries w := by
  induction h with
  | nil w => exact .nil w
  | cons d hafter _ ih => exact .cons d hafter (ih hw)
  | exhausted name _ ih =>
    -- The fault that a group ran out of rounds would still be there.
    have hfault := (ih hw).clean hw
    simp [Workspace.Clean] at hfault

/-- **The history of a stage that ends without a fault** leads to what the stage returns. -/
theorem linked_history (stage : Stage) (w : Workspace π) (m : Memory)
    (h : (stage.run w m).1.Clean) : Linked w (stage.history w m) (stage.run w m).1 :=
  (traced_history stage w m).linked h

/-! ## The passes of a stage -/

omit [Sweepable π] in
theorem forall_iterateHistory {P : Entry π → Prop} {round : Workspace.Round π}
    {history : Workspace π → List Memory → List (Entry π)}
    (h : ∀ w m, ∀ entry ∈ history w m, P entry) (rounds : Nat) (w : Workspace π) (m : List Memory) :
    ∀ entry ∈ Workspace.iterateHistory round history rounds w m, P entry := by
  induction rounds generalizing w m with
  | zero => simp [Workspace.iterateHistory]
  | succ rounds ih =>
    intro entry hentry
    rw [Workspace.iterateHistory] at hentry
    split at hentry
    · cases hentry
    · rcases List.mem_append.mp hentry with hentry | hentry
      · exact h w m entry hentry
      · split at hentry
        · cases hentry
        · exact ih _ _ entry hentry

mutual

/-- What holds of every pass of a stage, wherever it is run, holds along the history. -/
theorem forall_history {P : Entry π → Prop} : ∀ (stage : Stage),
    (∀ kind ∈ stage.kinds, ∀ w d, P ⟨kind, w, (w.runPass kind d).1⟩) → ∀ w m,
      ∀ entry ∈ stage.history w m, P entry
  | pass kind, hpass, w, m => by
    rw [history]
    intro entry hentry
    rw [List.mem_singleton.mp hentry]
    exact hpass kind (by simp [kinds]) w m.discovery
  | fixpoint name stages rounds, hpass, w, m => by
    rw [kinds] at hpass
    rw [history]
    exact forall_iterateHistory (fun w ms => forall_historyAll stages hpass w ms) rounds w m.members

theorem forall_historyAll {P : Entry π → Prop} : ∀ (stages : List Stage),
    (∀ kind ∈ kindsAll stages, ∀ w d, P ⟨kind, w, (w.runPass kind d).1⟩) → ∀ w ms,
      ∀ entry ∈ historyAll stages w ms, P entry
  | [], _, w, ms => by simp [historyAll]
  | stage :: rest, hpass, w, ms => by
    rw [kindsAll] at hpass
    intro entry hentry
    rw [historyAll] at hentry
    rcases List.mem_append.mp hentry with hentry | hentry
    · exact forall_history stage (fun kind hkind => hpass kind (List.mem_append_left _ hkind)) w _
        entry hentry
    · exact forall_historyAll rest (fun kind hkind => hpass kind (List.mem_append_right _ hkind)) _
        _ entry hentry

end

theorem kind_mem_kinds (stage : Stage) (w : Workspace π) (m : Memory) :
    ∀ entry ∈ stage.history w m, entry.kind ∈ stage.kinds :=
  forall_history (P := fun entry => entry.kind ∈ stage.kinds) stage (fun _ hkind _ _ => hkind) w m

theorem kind_mem_kindsAll (stages : List Stage) (w : Workspace π) (ms : List Memory) :
    ∀ entry ∈ historyAll stages w ms, entry.kind ∈ kindsAll stages :=
  forall_historyAll (P := fun entry => entry.kind ∈ kindsAll stages) stages
    (fun _ hkind _ _ => hkind) w ms

/-! ## What passes keep -/

/-- A pass that was run without a fault. -/
structure Entry.Valid (entry : Entry π) : Prop where
  runs : ∃ d, entry.after = (entry.before.runPass entry.kind d).1
  clean : entry.after.Clean

variable {u w : Workspace π} {entries : List (Entry π)}

theorem Linked.valid (h : Linked u entries w) (hw : w.Clean) : ∀ entry ∈ entries, entry.Valid := by
  induction h with
  | nil => simp
  | cons d hafter hrest ih =>
    intro entry hentry
    rcases List.mem_cons.mp hentry with rfl | hentry
    · exact ⟨⟨d, hafter⟩, hrest.clean hw⟩
    · exact ih hw entry hentry

theorem Linked.lost {L : Workspace π → Prop} (h : Linked u entries w) (hu : L u)
    (hstep : ∀ entry ∈ entries, L entry.before → L entry.after) : L w := by
  induction h with
  | nil => exact hu
  | cons d hafter _ ih =>
    exact ih (hstep _ List.mem_cons_self hu) fun entry hentry =>
      hstep entry (List.mem_cons_of_mem _ hentry)

theorem Linked.kept_before {I : Workspace π → Prop} (h : Linked u entries w) (hu : I u)
    (hstep : ∀ entry ∈ entries, I entry.before → I entry.after) :
    ∀ entry ∈ entries, I entry.before := by
  induction h with
  | nil => simp
  | cons d hafter _ ih =>
    refine List.forall_mem_cons.mpr ⟨hu, ih (hstep _ List.mem_cons_self hu) ?_⟩
    exact fun entry hentry => hstep entry (List.mem_cons_of_mem _ hentry)

/-- What a pass brings about and every pass keeps holds in the end. -/
theorem Linked.kept_behind {I : Workspace π → Prop} (h : Linked u entries w)
    (hstep : ∀ entry ∈ entries, I entry.before → I entry.after) {entry : Entry π}
    (hentry : entry ∈ entries) (hI : I entry.after) : I w := by
  induction h with
  | nil => cases hentry
  | @cons _ rest _ d hafter hrest ih =>
    have hrests : ∀ other ∈ rest, I other.before → I other.after := fun other hother =>
      hstep other (List.mem_cons_of_mem _ hother)
    rcases List.mem_cons.mp hentry with rfl | hentry
    · exact hrest.lost hI hrests
    · exact ih hrests hentry

/-- **What a pass keeps if a condition holds and loses for good if not** is there in the end exactly
if the condition held for every pass. -/
theorem Linked.kept_or_lost {K L : Workspace π → Prop} {C : Entry π → Prop} (h : Linked u entries w)
    (hu : K u) (hkeep : ∀ entry ∈ entries, K entry.before → C entry → K entry.after)
    (hlose : ∀ entry ∈ entries, K entry.before → ¬ C entry → L entry.after)
    (hlost : ∀ entry ∈ entries, L entry.before → L entry.after) :
    (K w ∧ ∀ entry ∈ entries, C entry) ∨ (L w ∧ ∃ entry ∈ entries, ¬ C entry) := by
  induction h with
  | nil => exact .inl ⟨hu, by simp⟩
  | @cons entry rest w d hafter hrest ih =>
    have hmem {e : Entry π} (he : e ∈ rest) : e ∈ entry :: rest := List.mem_cons_of_mem _ he
    -- The first pass decides, unless it keeps; then the rest of the history does.
    by_cases hC : C entry
    · rcases ih (hkeep entry List.mem_cons_self hu hC) (fun e he => hkeep e (hmem he))
        (fun e he => hlose e (hmem he)) (fun e he => hlost e (hmem he)) with
        ⟨hw, hall⟩ | ⟨hw, e, he, hne⟩
      · exact .inl ⟨hw, List.forall_mem_cons.mpr ⟨hC, hall⟩⟩
      · exact .inr ⟨hw, e, hmem he, hne⟩
    · exact .inr ⟨hrest.lost (hlose entry List.mem_cons_self hu hC) fun e he =>
        hlost e (hmem he), entry, List.mem_cons_self, hC⟩

/-! ## Invariants of stages -/

section Invariants

/-- The fault that a group ran out of rounds does not matter to a property. -/
def Endures (I : Workspace π → Prop) : Prop :=
  ∀ w name, I w → I { w with context := w.context.error .topLevel (.pass (.noConvergence name)) }

variable {I : Workspace π → Prop} {u w : Workspace π} {entries : List (Entry π)}

omit [Sweepable π] in
/-- What the first round of a group brings about and every round keeps holds behind the group. -/
theorem kept_of_first_round {name : String} {round : Workspace.Round π} {rounds : Nat}
    {changed : Bool} {w : Workspace π} {m : List Memory} (hw : w.Clean) (hfirst : I (round w m).1)
    (hround : ∀ w m, I w → I (round w m).1) (hend : Endures I) :
    I (Workspace.iterate name round (rounds + 1) changed w m).1 := by
  rw [Workspace.iterate_succ hw]
  split
  · exact hfirst
  · exact Workspace.kept_iterate (A := fun w _ => I w) (fun _ h => hround _ _ h)
      (fun h => hend _ name h) rounds true hfirst

/-- **What every pass keeps**, with a fault or without one, holds behind each of them and in the
end. -/
theorem Traced.kept (h : Traced u entries w) (hend : Endures I)
    (hpass : ∀ entry ∈ entries, ∀ w d, I w → I (w.runPass entry.kind d).1) (hu : I u) :
    I w ∧ ∀ entry ∈ entries, I entry.after := by
  induction h with
  | nil => exact ⟨hu, by simp⟩
  | @cons entry rest w d hafter _ ih =>
    obtain ⟨hfirst, hrest⟩ := List.forall_mem_cons.mp hpass
    have hbehind : I entry.after := hafter ▸ hfirst entry.before d hu
    obtain ⟨hlast, hothers⟩ := ih hrest hbehind
    exact ⟨hlast, List.forall_mem_cons.mpr ⟨hbehind, hothers⟩⟩
  | exhausted name _ ih => exact ih hpass (hend _ name hu)

theorem Traced.kept_before (h : Traced u entries w) (hend : Endures I)
    (hpass : ∀ entry ∈ entries, ∀ w d, I w → I (w.runPass entry.kind d).1) (hu : I u) :
    ∀ entry ∈ entries, I entry.before := by
  induction h with
  | nil => simp
  | @cons entry rest w d hafter _ ih =>
    obtain ⟨hfirst, hrest⟩ := List.forall_mem_cons.mp hpass
    exact List.forall_mem_cons.mpr ⟨hu, ih hrest (hafter ▸ hfirst entry.before d hu)⟩
  | exhausted name _ ih => exact ih hpass (hend _ name hu)

theorem kept_run (hend : Endures I) (stage : Stage)
    (hpass : ∀ kind ∈ stage.kinds, ∀ w d, I w → I (w.runPass kind d).1) (w : Workspace π)
    (m : Memory) (hw : I w) :
    I (stage.run w m).1 ∧ ∀ entry ∈ stage.history w m, I entry.after :=
  (traced_history stage w m).kept hend
    (fun entry hentry => hpass entry.kind (kind_mem_kinds stage w m entry hentry)) hw

theorem kept_runAll (hend : Endures I) (stages : List Stage)
    (hpass : ∀ kind ∈ kindsAll stages, ∀ w d, I w → I (w.runPass kind d).1) (w : Workspace π)
    (ms : List Memory) (hw : I w) :
    I (runAll stages w ms).1 ∧ ∀ entry ∈ historyAll stages w ms, I entry.after :=
  (traced_historyAll stages w ms).kept hend
    (fun entry hentry => hpass entry.kind (kind_mem_kindsAll stages w ms entry hentry)) hw

theorem kept_runStages {stages : List Stage} (hend : Endures I)
    (hpass : ∀ kind ∈ kindsAll stages, ∀ w d, I w → I (w.runPass kind d).1) {w : Workspace π}
    (hw : I w) : I (Assembly.runStages stages w) := by
  induction stages generalizing w with
  | nil => exact hw
  | cons stage rest ih =>
    rw [kindsAll] at hpass
    have hfirst := kept_run hend stage
      (fun kind hkind => hpass kind (List.mem_append_left _ hkind)) w .fresh hw
    exact ih (fun kind hkind => hpass kind (List.mem_append_right _ hkind)) hfirst.1

end Invariants

/-! ## What passes add to -/

section Growth

/-- A relation between workspaces that something only grows along: the fault that a group ran out of
rounds takes nothing away. -/
structure Growth (R : Workspace π → Workspace π → Prop) : Prop where
  refl : ∀ w, R w w
  trans : ∀ {u v w}, R u v → R v w → R u w
  exhausted : ∀ w name,
    R w { w with context := w.context.error .topLevel (.pass (.noConvergence name)) }

variable {R : Workspace π → Workspace π → Prop} {u w : Workspace π} {entries : List (Entry π)}

/-- **What every pass only adds to**, with a fault or without one, is in the end at least what it
was behind each of them. -/
theorem Traced.grown (h : Traced u entries w) (hR : Growth R)
    (hpass : ∀ entry ∈ entries, ∀ w d, R w (w.runPass entry.kind d).1) :
    R u w ∧ ∀ entry ∈ entries, R entry.after w := by
  induction h with
  | nil w => exact ⟨hR.refl w, by simp⟩
  | @cons entry rest w d hafter _ ih =>
    obtain ⟨hfirst, hrest⟩ := List.forall_mem_cons.mp hpass
    have hstep : R entry.before entry.after := hafter ▸ hfirst entry.before d
    obtain ⟨hlast, hothers⟩ := ih hrest
    exact ⟨hR.trans hstep hlast, List.forall_mem_cons.mpr ⟨hlast, hothers⟩⟩
  | exhausted name _ ih =>
    obtain ⟨hlast, hothers⟩ := ih hpass
    exact ⟨hR.trans (hR.exhausted _ name) hlast, hothers⟩

theorem grown_runAll (hR : Growth R) (stages : List Stage)
    (hpass : ∀ kind ∈ kindsAll stages, ∀ w d, R w (w.runPass kind d).1) (w : Workspace π)
    (ms : List Memory) :
    R w (runAll stages w ms).1 ∧ ∀ entry ∈ historyAll stages w ms,
      R entry.after (runAll stages w ms).1 :=
  (traced_historyAll stages w ms).grown hR fun entry hentry =>
    hpass entry.kind (kind_mem_kindsAll stages w ms entry hentry)

end Growth

/-! ## Assembling -/

/-- The stages of assembling, with the last pass. -/
def complete (extend : Bool) : List Stage :=
  pipeline extend ++ [pass .emit]

/-- The passes of stages that are run for the first time. -/
theorem historyAll_append (first second : List Stage) (w : Workspace π) :
    historyAll (first ++ second) w [] =
      historyAll first w [] ++ historyAll second (Assembly.runStages first w) [] := by
  induction first generalizing w with
  | nil =>
    rw [historyAll]
    rfl
  | cons stage rest ih =>
    rw [List.cons_append, historyAll, historyAll, List.tail_nil, ih, List.append_assoc]
    rfl

end Stage

namespace Assembly

theorem runStages_append (first second : List Stage) (w : Workspace π) :
    runStages (first ++ second) w = runStages second (runStages first w) :=
  List.foldl_append

/-- A program when it has gone through so many stages. -/
def behindStage (options : Options) (program : π) (diagnostics : Diagnostics) (n : Nat) :
    Workspace π :=
  runStages ((Stage.pipeline options.branchExtend).take n) (start options program diagnostics)

variable {options : Options} {program : π} {diagnostics : Diagnostics} {n : Nat}

theorem behindStage_succ {stage : Stage}
    (h : (Stage.pipeline options.branchExtend)[n]? = some stage) :
    behindStage options program diagnostics (n + 1) =
      (stage.go (behindStage options program diagnostics n)).1 := by
  simp [behindStage, runStages, List.take_add_one, h]

/-- The passes of assembling a program, from the stage with a number on, up to the last pass. -/
def entries (options : Options) (program : π) (diagnostics : Diagnostics) (n : Nat) :
    List (Stage.Entry π) :=
  Stage.historyAll ((Stage.complete options.branchExtend).drop n)
    (behindStage options program diagnostics n) []

theorem runs_of_mem_entries {entry : Stage.Entry π}
    (h : entry ∈ entries options program diagnostics n) :
    ∃ d, entry.after = (entry.before.runPass entry.kind d).1 :=
  Stage.forall_historyAll (P := fun entry =>
    ∃ d, entry.after = (entry.before.runPass entry.kind d).1) _ (fun _ _ _ d => ⟨d, rfl⟩) _ _
    entry h

end Assembly
end Assembler6502
