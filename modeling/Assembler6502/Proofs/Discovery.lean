import Assembler6502.Proofs.Faithfulness
import Assembler6502.Proofs.History
import Mathlib.Data.List.Induction

/-!
# Where the program counter is known

A label for the current address can be bound where the program counter is known. It is known at the
beginning, and behind a directive that moves it if the target of the directive is valid. Both the
discovery of labels and the check behind it keep one answer for all segments: a directive in one
segment decides on the labels of the segments that are entered after it, although each segment has
a program counter of its own. So a label is found if the last directive before it, in whatever
segment, has a hardcoded target; directives in its own segment alone do not matter.

## Main definitions

* `Item.target?`: the target of a directive that moves the program counter
* `Environment.pcKnown`: whether the program counter is known behind some statements

## Main results

* `Pass.memory_checkCircularity`, `Pass.pcKnown_initLabels`: both passes ask the same question
* `Workspace.labels_of_quiet`, `Workspace.bound_of_quiet`: a round that finds nothing has found the
  labels before
* `Assembly.counter_known_across_segments`: when a label for the current address is reported
-/

namespace Assembler6502

/-- The target of a directive that moves the program counter. -/
def Item.target? : Item → Option Expr
  | .setPc target | .advance target _ => some target
  | _ => none

/-- Whether the program counter is known behind an item, given what is seen and whether it was known
before. -/
def Item.knownBehind (item : Item) (ν : Valuation) (known : Bool) : Bool :=
  match item.target? with
  | some target => target.isValid ν known
  | none => known

theorem Item.knownBehind_mono {item : Item} {ν ν' : Valuation} {known known' : Bool}
    (hν : ∀ symbol, (ν.lookup symbol).isSome → (ν'.lookup symbol).isSome)
    (hknown : known = true → known' = true) (h : item.knownBehind ν known = true) :
    item.knownBehind ν' known' = true := by
  unfold Item.knownBehind at h ⊢
  split at h
  · exact Expr.isValid_mono hν hknown _ h
  · exact hknown h

theorem Item.knownBehind_congr {ν ν' : Valuation}
    (hν : ∀ symbol, (ν.lookup symbol).isSome = (ν'.lookup symbol).isSome) (item : Item)
    (known : Bool) : item.knownBehind ν known = item.knownBehind ν' known := by
  unfold Item.knownBehind
  split
  · exact Expr.isValid_congr hν _
  · rfl

/-- The last directive before a point has a hardcoded target, if there is one. -/
def LastHardcoded (leaves : List (Nat × Statement)) : Prop :=
  ∀ target, (leaves.filterMap fun l => l.2.item.target?).getLast? = some target →
    target.isHardcoded = true

/-- **A hardcoded target** makes the program counter known, until another directive moves it,
whatever a walk sees. -/
theorem known_of_last {σ : Type} {f : σ → Nat × Statement → σ} (known : σ → Bool)
    (hstep : ∀ s l, ∃ ν, known (f s l) = l.2.item.knownBehind ν (known s))
    {leaves : List (Nat × Statement)} (h : LastHardcoded leaves) {s : σ} (hs : known s = true) :
    known (leaves.foldl f s) = true := by
  -- The last statement decides, or leaves it to those before.
  induction leaves using List.reverseRecOn with
  | nil => exact hs
  | append_singleton before l ih =>
    rw [List.foldl_append, List.foldl_cons, List.foldl_nil]
    obtain ⟨ν, hν⟩ := hstep (before.foldl f s) l
    rw [hν, Item.knownBehind]
    cases htarget : l.2.item.target? with
    | some target =>
      have hlast : target.isHardcoded = true := h target (by simp [htarget])
      exact Expr.isValid_of_isHardcoded target hlast
    | none =>
      refine ih fun target hlast => h target ?_
      simpa [List.filterMap_append, htarget] using hlast

namespace Environment

/-- What a statement does to the open scopes and to whether the program counter is known. -/
def trackKnown (env : Environment) (x : ScopeState × Bool) (l : Nat × Statement) :
    ScopeState × Bool :=
  (x.1.follow l.2.item, l.2.item.knownBehind (env.valuationIn x.1.inner) x.2)

/-- Whether the program counter is known behind some statements, in whatever segments they are. -/
def pcKnown (env : Environment) (leaves : List (Nat × Statement)) : Bool :=
  (leaves.foldl env.trackKnown ({}, true)).2

theorem pcKnown_of_restart {e f : Environment} (h : f.restart = e.restart)
    (leaves : List (Nat × Statement)) : f.pcKnown leaves = e.pcKnown leaves := by
  have htrack : f.trackKnown = e.trackKnown := by
    funext x l
    have hvaluation : f.valuationIn x.1.inner = e.valuationIn x.1.inner := by
      simp only [valuationIn, Valuation.mk.injEq, and_true]
      exact funext (lookupIn_of_restart h x.1.inner)
    rw [trackKnown, trackKnown, hvaluation]
  rw [pcKnown, pcKnown, htrack]

theorem pcKnown_of_last (env : Environment) {leaves : List (Nat × Statement)}
    (h : LastHardcoded leaves) : env.pcKnown leaves = true :=
  known_of_last Prod.snd (fun _ _ => ⟨_, rfl⟩) h rfl

end Environment

namespace Pass

/-! ## One statement -/

/-- The check behind the discovery keeps in mind whether the program counter is known. -/
theorem memory_checkCircularity (s : Sweep Bool) (l : Nat × Statement) :
    (Visit.step checkCircularity s l).memory =
      l.2.item.knownBehind s.context.env.valuation s.memory := by
  obtain ⟨id, location, item⟩ := l
  cases item with
  | setPc target | advance target fill =>
    simp only [Visit.step, checkCircularity, Visit.observe, checkTarget]
    split <;> rfl
  | checkPc target | label symbol value =>
    simp only [Visit.step, checkCircularity, Visit.observe]
    split <;> rfl
  | _ => rfl

section InitLabels

variable (s : Sweep Discovery) (id : Nat) (location : Location) (symbol : Symbol) (value : Expr)

theorem noteDefinition_keeps :
    (noteDefinition s id location symbol).memory.pcKnown = s.memory.pcKnown ∧
      (noteDefinition s id location symbol).changed = s.changed ∧
      (noteDefinition s id location symbol).context.env = s.context.env := by
  unfold noteDefinition
  dsimp only
  split
  · exact ⟨rfl, rfl, rfl⟩
  · split <;> exact ⟨rfl, rfl, rfl⟩

theorem warnOfName_keeps :
    (warnOfName s location symbol).memory = s.memory ∧
      (warnOfName s location symbol).changed = s.changed ∧
      (warnOfName s location symbol).context.env = s.context.env := by
  unfold warnOfName
  split
  · split <;> exact ⟨rfl, rfl, rfl⟩
  · exact ⟨rfl, rfl, rfl⟩

/-- What the discovery does at the definition of a label, apart from faults and warnings: it binds a
label whose expression is valid, unless it is bound. -/
theorem initLabels_label {s : Sweep Discovery} {l : Nat × Statement} {symbol : Symbol}
    {value : Expr} (hitem : l.2.item = .label symbol value) :
    (Visit.step initLabels s l).memory.pcKnown = s.memory.pcKnown ∧
      if value.isValid s.context.env.valuation s.memory.pcKnown && !s.context.env.contains symbol
        then (Visit.step initLabels s l).changed = true ∧
          (Visit.step initLabels s l).context.env = s.context.env.bind symbol 0
        else (Visit.step initLabels s l).changed = s.changed ∧
          (Visit.step initLabels s l).context.env = s.context.env := by
  obtain ⟨hknown, hchanged, henv⟩ := noteDefinition_keeps s l.1 l.2.location symbol
  obtain ⟨hmemory', hchanged', henv'⟩ := warnOfName_keeps
    (bindIfValid (noteDefinition s l.1 l.2.location symbol) symbol value) l.2.location symbol
  simp only [Visit.step, initLabels, Visit.observe, hitem]
  rw [hmemory', hchanged', henv', bindIfValid, hknown, henv]
  split
  · refine ⟨hknown, rfl, ?_⟩
    rw [Sweep.context_setChanged, Sweep.context_mapEnv, Context.env_mapEnv, henv]
  · exact ⟨hknown, hchanged, henv⟩

end InitLabels

/-- So does the discovery itself. -/
theorem pcKnown_initLabels (s : Sweep Discovery) (l : Nat × Statement) :
    (Visit.step initLabels s l).memory.pcKnown =
      l.2.item.knownBehind s.context.env.valuation s.memory.pcKnown := by
  by_cases hlabel : ∃ symbol value, l.2.item = .label symbol value
  · obtain ⟨symbol, value, hitem⟩ := hlabel
    rw [(initLabels_label hitem).1, hitem]
    rfl
  · obtain ⟨id, location, item⟩ := l
    cases item with
    | label symbol value => exact absurd ⟨symbol, value, rfl⟩ hlabel
    | _ => rfl

/-- Behind the discovery of a label whose expression is valid, the label is bound. -/
theorem bound_initLabels {s : Sweep Discovery} {l : Nat × Statement} {symbol : Symbol}
    {value : Expr} (hitem : l.2.item = .label symbol value)
    (hvalid : value.isValid s.context.env.valuation s.memory.pcKnown = true) :
    ((Visit.step initLabels s l).context.env.lookup symbol).isSome = true := by
  have hlabel := (initLabels_label (s := s) hitem).2
  rw [hvalid, Bool.true_and] at hlabel
  split at hlabel
  · rw [hlabel.2, Environment.lookup_bind_self]
    rfl
  · rename_i hbound
    rw [hlabel.2]
    simpa [Environment.contains, Option.isSome_iff_ne_none] using hbound

theorem initLabels_other {s : Sweep Discovery} {l : Nat × Statement}
    (hitem : ¬ ∃ symbol value, l.2.item = .label symbol value) :
    (Visit.step initLabels s l).changed = s.changed ∧
      (Visit.step initLabels s l).context.env.restart = s.context.env.restart := by
  obtain ⟨id, location, item⟩ := l
  cases item with
  | label symbol value => exact absurd ⟨symbol, value, rfl⟩ hitem
  | setPc target | advance target fill => exact ⟨rfl, rfl⟩
  | _ => exact ⟨rfl, Context.restart_followStructure _ _⟩

/-- Where the discovery counts as no change it changes no label, and none before. -/
theorem quiet_initLabels {s : Sweep Discovery} {l : Nat × Statement}
    (h : (Visit.step initLabels s l).changed = false) :
    s.changed = false ∧
      (Visit.step initLabels s l).context.env.restart = s.context.env.restart := by
  by_cases hlabel : ∃ symbol value, l.2.item = .label symbol value
  · obtain ⟨symbol, value, hitem⟩ := hlabel
    have hcases := (initLabels_label (s := s) hitem).2
    split at hcases
    · rw [hcases.1] at h
      cases h
    · rw [hcases.2]
      exact ⟨hcases.1.symm.trans h, rfl⟩
  · obtain ⟨hchanged, hrestart⟩ := initLabels_other hlabel
    exact ⟨hchanged.symm.trans h, hrestart⟩

/-- What the check behind the discovery says of a label for the current address. -/
theorem errors_checkCircularity {s : Sweep Bool} {l : Nat × Statement} {symbol : Symbol}
    (hitem : l.2.item = .label symbol .programCounter) :
    (Visit.step checkCircularity s l).context.diagnostics.errors =
      s.context.diagnostics.errors ++
        if s.memory then [] else [⟨l.2.location, .symbol (.circularLabel symbol)⟩] := by
  cases hknown : s.memory <;>
    simp [Visit.step, checkCircularity, Visit.observe, hitem, hknown, Context.error,
      Diagnostics.error]

end Pass

namespace Workspace

variable {w : Workspace} {before after : List (Nat × Statement)} {l : Nat × Statement}

/-! ## Statements before a label -/

theorem mem_visits_of_leaves {μ : Type} {memory : μ} {visit : Visit μ}
    (h : w.program.leaves = before ++ l :: after) :
    (before.foldl visit.step (w.opening memory), l) ∈ w.visits memory visit ∧
      ∀ x ∈ reached visit.step (w.opening memory) before, x ∈ w.visits memory visit := by
  rw [visits, h, reached_append, reached_cons]
  exact ⟨by simp, fun x hx => List.mem_append_left _ hx⟩

theorem scopeState_foldl {μ : Type} {memory : μ} {visit : Visit μ} (hv : visit.Faithful) :
    (before.foldl visit.step (w.opening memory)).context.env.scopeState =
      ScopeState.behind before := by
  have hscopes : (w.opening memory).context.env.scopeState = {} := by
    rw [env_opening]
    rfl
  rw [ScopeState.behind, ← hscopes]
  exact (List.foldl_hom (fun s : Sweep μ => s.context.env.scopeState)
    fun s l => (hv.scopes s l).symm).symm

/-- The state in which the check behind the discovery has gone over some statements. -/
def checkedBehind (w : Workspace) (before : List (Nat × Statement)) : Sweep Bool :=
  before.foldl (Visit.step Pass.checkCircularity) (w.opening true)

/-- A pass that leaves the labels alone and keeps in mind whether the program counter is known comes
to the answer that the labels give. -/
theorem known_of_foldl {μ : Type} {memory : μ} {visit : Visit μ} (known : μ → Bool)
    (hv : visit.Faithful) (hknown : known memory = true)
    (hmemory : ∀ s l, known (visit.step s l).memory =
      l.2.item.knownBehind s.context.env.valuation (known s.memory))
    (hlabels : ∀ x ∈ reached visit.step (w.opening memory) before,
      (visit.step x.1 x.2).context.env.restart = x.1.context.env.restart) :
    (before.foldl visit.step (w.opening memory)).context.env.restart = w.context.env.restart ∧
      known (before.foldl visit.step (w.opening memory)).memory = w.context.env.pcKnown before := by
  obtain ⟨⟨hrestart, -, hend⟩, -⟩ := lockstep (s := w.opening memory)
    (t := (({}, true) : ScopeState × Bool))
    (R := fun (s : Sweep μ) (x : ScopeState × Bool) =>
      s.context.env.restart = w.context.env.restart ∧ s.context.env.scopeState = x.1 ∧
        known s.memory = x.2)
    (f := visit.step) (g := w.context.env.trackKnown) (l := before)
    ⟨by rw [env_opening]; rfl, by rw [env_opening]; rfl, hknown⟩
    (by
      rintro x hx ⟨y, a⟩ - - ⟨hrestart, hstate, hmem⟩
      refine ⟨(hlabels x hx).trans hrestart, ?_, ?_⟩
      · rw [hv.scopes, hstate]
        rfl
      · -- What is known is a matter of the labels that are seen, and those are from before.
        rw [hmemory, hmem, Environment.trackKnown, ← hstate]
        refine Item.knownBehind_congr (fun symbol => ?_) _ _
        simp only [Environment.valuationIn, ← Environment.lookupIn_of_restart hrestart]
        rfl)
  exact ⟨hrestart, hend⟩

theorem leaves_observe {μ : Type} {memory : μ} {step : Sweep μ → Nat → Statement → Sweep μ}
    {close : Context → Context} :
    (w.sweep memory (Visit.observe step) close).1.program.leaves = w.program.leaves := by
  rw [Workspace.sweep_eq, children_sweep_eq_self fun _ _ => rfl]
  rfl

/-! ## Rounds of the discovery -/

variable {d : Discovery} {symbol : Symbol}

/-- A label whose expression is valid where a round comes to it is bound, in the scopes where it
stands, and it stays bound. -/
theorem bound_of_visit {x : Sweep Discovery × Nat × Statement} {value : Expr}
    (hx : x ∈ w.visits d Pass.initLabels) (hitem : x.2.2.item = .label symbol value)
    (hvalid : value.isValid x.1.context.env.valuation x.1.memory.pcKnown = true) :
    ((w.sweep d Pass.initLabels id).1.context.env.lookupIn x.1.context.env.scopeState.inner
      symbol).isSome = true := by
  have hbound := Pass.bound_initLabels hitem hvalid
  have hstate : (Visit.step Pass.initLabels x.1 x.2).context.env.scopeState =
      x.1.context.env.scopeState := by
    rw [Pass.inPlace_initLabels.faithful.scopes, hitem]
    rfl
  rw [← Environment.lookupIn_inner] at hbound
  have hgrows := (forall_reached_le (f := Visit.step Pass.initLabels)
    (R := fun s t : Sweep Discovery => s.context.env.Grows t.context.env)
    (fun s => .refl s.context.env) (fun h h' => h.trans h')
    Pass.inPlace_initLabels.faithful.grows).2 _ hx
  rw [← hstate, Workspace.sweep_eq]
  simp only [id, Context.env_restart, Environment.lookupIn_restart]
  exact hgrows _ symbol hbound

/-- Where the program counter is known a label is bound. -/
theorem bound_of_known (hleaves : w.program.leaves = before ++ l :: after)
    (hitem : l.2.item = .label symbol .programCounter)
    (hknown : (before.foldl (Visit.step Pass.initLabels) (w.opening d)).memory.pcKnown = true) :
    ((w.sweep d Pass.initLabels id).1.context.env.lookupIn (ScopeState.behind before).inner
      symbol).isSome = true := by
  have hstate : (before.foldl (Visit.step Pass.initLabels) (w.opening d)).context.env.scopeState =
      ScopeState.behind before := scopeState_foldl Pass.inPlace_initLabels.faithful
  rw [← hstate]
  exact bound_of_visit (mem_visits_of_leaves hleaves).1 hitem hknown

/-- A round binds a label that stands behind a directive with a hardcoded target, or before all
directives. -/
theorem bound_of_last (hd : d.pcKnown = true) (hleaves : w.program.leaves = before ++ l :: after)
    (hitem : l.2.item = .label symbol .programCounter) (hlast : LastHardcoded before) :
    ((w.sweep d Pass.initLabels id).1.context.env.lookupIn (ScopeState.behind before).inner
      symbol).isSome = true :=
  bound_of_known hleaves hitem
    (known_of_last (fun s : Sweep Discovery => s.memory.pcKnown)
      (fun s l => ⟨_, Pass.pcKnown_initLabels s l⟩) hlast hd)

/-- **A round that finds nothing** changes no label, at whatever statement it comes to. -/
theorem labels_of_quiet (hquiet : (w.sweep d Pass.initLabels id).2.1 = false) :
    (w.sweep d Pass.initLabels id).1.context.env.restart = w.context.env.restart ∧
      ∀ x ∈ w.visits d Pass.initLabels,
        (Visit.step Pass.initLabels x.1 x.2).context.env.restart =
          x.1.context.env.restart := by
  have hclosing : (w.closing d Pass.initLabels).changed = false := by
    rw [Workspace.sweep_eq] at hquiet
    exact hquiet
  -- A change that was reported stays reported, so none was on the way.
  have hunchanged := forall_reached_of_foldl (f := Visit.step Pass.initLabels)
    (P := fun s : Sweep Discovery => s.changed = false) (fun _ _ hs => (Pass.quiet_initLabels hs).1)
    hclosing
  have hend := (foldl_invariant (f := Visit.step Pass.initLabels) (s := w.opening d)
    (l := w.program.leaves)
    (P := fun s : Sweep Discovery => s.context.env.restart = w.context.env.restart)
    (by rw [env_opening]; rfl)
    fun x hx hP => (Pass.quiet_initLabels (hunchanged x hx)).2.trans hP).1
  refine ⟨?_, fun x hx => (Pass.quiet_initLabels (hunchanged x hx)).2⟩
  rw [Workspace.sweep_eq]
  simp only [id, Context.env_restart, Environment.restart_restart]
  exact hend

/-- A round that finds nothing has every label bound that stands where the program counter is
known. -/
theorem bound_of_quiet (hd : d.pcKnown = true) (hleaves : w.program.leaves = before ++ l :: after)
    (hitem : l.2.item = .label symbol .programCounter)
    (hquiet : (w.sweep d Pass.initLabels id).2.1 = false)
    (hknown : (w.sweep d Pass.initLabels id).1.context.env.pcKnown before = true) :
    ((w.sweep d Pass.initLabels id).1.context.env.lookupIn (ScopeState.behind before).inner
      symbol).isSome = true := by
  -- Nothing was found at any statement, so the labels are those from before the round.
  obtain ⟨hlabels, hsteps⟩ := labels_of_quiet hquiet
  have hmemory : (before.foldl (Visit.step Pass.initLabels) (w.opening d)).memory.pcKnown =
      w.context.env.pcKnown before :=
    (known_of_foldl Discovery.pcKnown Pass.inPlace_initLabels.faithful hd Pass.pcKnown_initLabels
      fun x hx => hsteps x ((mem_visits_of_leaves hleaves).2 x hx)).2
  apply bound_of_known hleaves hitem
  rw [hmemory, ← Environment.pcKnown_of_restart hlabels]
  exact hknown

end Workspace

/-! ## The stages that find labels -/

namespace Assembly

/-- A program when macros are expanded. -/
abbrev expanded (options : Options) (program : Program) (diagnostics : Diagnostics) : Workspace :=
  behindStage options program diagnostics 2

/-- A program when labels have been found. -/
abbrev discovered (options : Options) (program : Program) (diagnostics : Diagnostics) :
    Workspace :=
  behindStage options program diagnostics 3

variable {options : Options} {program : Program} {diagnostics : Diagnostics}
  {before after : List (Nat × Statement)} {l : Nat × Statement} {symbol : Symbol}

/-- The discovery keeps the statements. -/
theorem leaves_discovery :
    (discovered options program diagnostics).program.leaves =
      (expanded options program diagnostics).program.leaves := by
  have hstage : (Stage.pipeline options.branchExtend)[2]? =
      some (.fixpoint "label initialization" [.pass .initLabels]) := rfl
  rw [discovered, behindStage_succ hstage, Stage.fst_go]
  refine (Stage.kept_run (I := fun w : Workspace => w.program.leaves =
    (expanded options program diagnostics).program.leaves) (fun _ _ h => h) _ ?_ _ _ rfl).1
  intro kind hkind w d hw
  refine Workspace.kept_runPass (I := fun w : Workspace => w.program.leaves =
    (expanded options program diagnostics).program.leaves) (fun hclean => ?_) hw
  obtain rfl : kind = .initLabels := by simpa [Stage.kinds, Stage.kindsAll] using hkind
  rw [Workspace.runPass_initLabels hclean]
  exact Workspace.leaves_observe.trans hw

/-- The discovery that ends without a fault ends with a round that finds nothing. -/
theorem exists_last_round (h : (discovered options program diagnostics).Clean) :
    ∃ (w : Workspace) (d : Discovery), d.pcKnown = true ∧
      (w.sweep d Pass.initLabels id).1 = discovered options program diagnostics ∧
      (w.sweep d Pass.initLabels id).2.1 = false := by
  have hstage : (Stage.pipeline options.branchExtend)[2]? =
      some (.fixpoint "label initialization" [.pass .initLabels]) := rfl
  rw [discovered, behindStage_succ hstage, Stage.fst_go, Stage.run_fixpoint] at h ⊢
  obtain ⟨w, m, hw, heq, hlast⟩ := Workspace.iterate_exit h
  rw [← heq]
  simp only [Stage.runAll_single, Stage.run_pass, Stage.changed_run_pass,
    Workspace.runPass_initLabels hw] at hlast ⊢
  exact ⟨w, _, rfl, rfl, hlast⟩

/-- The first round of the discovery already binds a label behind a hardcoded target, and later
rounds leave it bound. -/
theorem bound_discovery (hclean : (expanded options program diagnostics).Clean)
    (hleaves : (expanded options program diagnostics).program.leaves = before ++ l :: after)
    (hitem : l.2.item = .label symbol .programCounter) (hlast : LastHardcoded before) :
    ((discovered options program diagnostics).context.env.lookupIn
      (ScopeState.behind before).inner symbol).isSome = true := by
  have hstage : (Stage.pipeline options.branchExtend)[2]? =
      some (.fixpoint "label initialization" [.pass .initLabels]) := rfl
  have hend : Stage.Endures fun w : Workspace =>
      (w.context.env.lookupIn (ScopeState.behind before).inner symbol).isSome = true :=
    fun _ _ h => h
  rw [discovered, behindStage_succ hstage, Stage.fst_go, Stage.run_fixpoint]
  refine Stage.kept_of_first_round (I := fun w : Workspace =>
    (w.context.env.lookupIn (ScopeState.behind before).inner symbol).isSome = true) hclean ?_
    (fun w m hw => (Stage.kept_runAll hend [.pass .initLabels] ?_ w m hw).1) hend
  · rw [Stage.runAll_single.1, Stage.run_pass, Workspace.runPass_initLabels hclean]
    exact Workspace.bound_of_last rfl hleaves hitem hlast
  · intro kind hkind w d hw
    obtain rfl : kind = .initLabels := by simpa [Stage.kinds, Stage.kindsAll] using hkind
    refine Workspace.kept_runPass (I := fun w : Workspace =>
      (w.context.env.lookupIn (ScopeState.behind before).inner symbol).isSome = true)
      (fun hw' => ?_) hw
    rw [Workspace.runPass_initLabels hw']
    exact Workspace.grows_sweep Pass.inPlace_initLabels.faithful _ symbol hw

/-- **One answer for all segments.** The check behind the discovery reports a label for the current
address exactly if the program counter is not known behind the statements before it, and there it
does not matter in which segments they are. If the discovery ends without a fault, then the label is
found where the program counter is known; and it is known, and the label is found, where the last
directive before the label, in whatever segment, has a hardcoded target or there is no directive. -/
theorem counter_known_across_segments (options : Options) (program : Program)
    (diagnostics : Diagnostics) (before after : List (Nat × Statement)) (l : Nat × Statement)
    (symbol : Symbol) (hclean : (expanded options program diagnostics).Clean)
    (hleaves : (expanded options program diagnostics).program.leaves = before ++ l :: after)
    (hitem : l.2.item = .label symbol .programCounter) :
    ((discovered options program diagnostics).checkedBehind before, l) ∈
        (discovered options program diagnostics).visits true Pass.checkCircularity ∧
      (Visit.step Pass.checkCircularity
          ((discovered options program diagnostics).checkedBehind before)
          l).context.diagnostics.errors =
        ((discovered options program diagnostics).checkedBehind
            before).context.diagnostics.errors ++
          (if (discovered options program diagnostics).context.env.pcKnown before then []
          else [⟨l.2.location, .symbol (.circularLabel symbol)⟩]) ∧
      ((discovered options program diagnostics).Clean →
        (discovered options program diagnostics).context.env.pcKnown before = true →
          ((discovered options program diagnostics).context.env.lookupIn
            (ScopeState.behind before).inner symbol).isSome = true) ∧
      (LastHardcoded before →
        (discovered options program diagnostics).context.env.pcKnown before = true ∧
          ((discovered options program diagnostics).context.env.lookupIn
            (ScopeState.behind before).inner symbol).isSome = true) := by
  have hfound : (discovered options program diagnostics).program.leaves =
      before ++ l :: after := leaves_discovery.trans hleaves
  refine ⟨(Workspace.mem_visits_of_leaves hfound).1, ?_, fun hclean' hknown => ?_, fun hlast => ?_⟩
  · have hmemory : ((discovered options program diagnostics).checkedBehind before).memory =
        (discovered options program diagnostics).context.env.pcKnown before :=
      (Workspace.known_of_foldl id Pass.inPlace_checkCircularity.faithful rfl
        Pass.memory_checkCircularity fun x _ =>
          (Pass.inPlace_checkCircularity.passes x.1 x.2.1 x.2.2).restart).2
    rw [Pass.errors_checkCircularity hitem, hmemory]
  · obtain ⟨w, d, hd, heq, hquiet⟩ := exists_last_round hclean'
    have hw : w.program.leaves = before ++ l :: after := by
      rw [← hfound, ← heq]
      exact Workspace.leaves_observe.symm
    rw [← heq] at hknown ⊢
    exact Workspace.bound_of_quiet hd hw hitem hquiet hknown
  · exact ⟨Environment.pcKnown_of_last _ hlast, bound_discovery hclean hleaves hitem hlast⟩

/-- A directive in the data segment whose target is a label in the text segment. -/
def forwardOrigin : Program :=
  ⟨[.leaf 1 ⟨.topLevel, .dataSegment defaultDataSegment⟩,
    .leaf 2 ⟨.topLevel, .setPc (.symbol (.global "last"))⟩,
    .leaf 3 ⟨.topLevel, .textSegment defaultTextSegment⟩,
    .leaf 4 ⟨.topLevel, .label (.global "last") .programCounter⟩,
    .leaf 5 ⟨.topLevel, .instruction (.implied .nop)⟩], 6⟩

/-- No directive moves the program counter of the text segment, and yet the label is reported. -/
theorem counter_known_forwardOrigin :
    (expanded {} forwardOrigin {}).Clean ∧
      (∀ x ∈ reached (Visit.step Pass.checkCircularity)
          ((discovered {} forwardOrigin {}).opening true) (forwardOrigin.leaves.take 3),
        x.1.context.env.segment = defaultTextSegment → x.2.2.item.target?.isNone = true) ∧
      ((discovered {} forwardOrigin {}).checkedBehind
        (forwardOrigin.leaves.take 3)).context.env.segment = defaultTextSegment ∧
      (behindStage {} forwardOrigin {} 4).context.diagnostics.errors =
        [⟨.topLevel, .symbol (.circularReference "program counter set")⟩,
          ⟨.topLevel, .symbol (.circularLabel (.global "last"))⟩] ∧
      (Visit.step Pass.checkCircularity
        ((discovered {} forwardOrigin {}).checkedBehind (forwardOrigin.leaves.take 3))
        (4, ⟨.topLevel, .label (.global "last") .programCounter⟩)).context.diagnostics.errors =
          ((discovered {} forwardOrigin {}).checkedBehind
            (forwardOrigin.leaves.take 3)).context.diagnostics.errors ++
              [⟨.topLevel, .symbol (.circularLabel (.global "last"))⟩] := by
  have hclean : (expanded {} forwardOrigin {}).Clean := by
    unfold Workspace.Clean
    decide +kernel
  have hunknown : (discovered {} forwardOrigin {}).context.env.pcKnown
      (forwardOrigin.leaves.take 3) = false := by
    decide +kernel
  obtain ⟨-, herrors, -⟩ := counter_known_across_segments {} forwardOrigin {}
    (forwardOrigin.leaves.take 3) (forwardOrigin.leaves.drop 4)
    (4, ⟨.topLevel, .label (.global "last") .programCounter⟩) (.global "last") hclean rfl rfl
  rw [hunknown] at herrors
  exact ⟨hclean, by decide +kernel, by decide +kernel, by decide +kernel, herrors⟩

end Assembly
end Assembler6502
